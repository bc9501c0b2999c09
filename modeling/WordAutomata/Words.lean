import WordAutomata.Walk

namespace WordAutomata

open Automaton (arcsAhead arcsAhead_lt)

/-- How far an enumeration has come: a cursor for each depth, and one buffer of labels for all of them. -/
structure Enumeration where
  /-- The labels of the arcs taken last. Those of a depth that is used up stay until an arc is taken again. -/
  labels : Bytes
  /-- The arc to be taken next at each depth, the deepest last. -/
  cursors : Array (Option Arc)

/-- What is needed to go on from an arc: its label, its final mark, and the first of the arcs that may follow. -/
def Automaton.enter (A : Automaton) (a : Arc) : Read (UInt8 × Bool × Option Arc) := do
  let c ← A.label a
  let below ← match ← A.target a with
    | none => pure none
    | some t => some <$> A.firstArc t
  return (c, ← A.isFinal a, below)

namespace Enumeration

/-- Takes the arc at a depth, the cursors above being given: the cursor goes on to the arc behind it, and what may follow
the arc is a depth of its own. Tells whether a word ends with the arc. -/
def take (A : Automaton) (labels : Bytes) (cursors : Array (Option Arc)) (a : Arc) : Read (Bool × Enumeration) := do
  let next ← A.nextArc a
  let (c, isFinal, below) ← A.enter a
  let labels := (labels.shrink cursors.size).push c
  let cursors := cursors.push next
  return (isFinal, ⟨labels, below.elim cursors fun b => cursors.push (some b)⟩)

/-- What an arc weighs that has so many depths below it: more than all arcs that may lie there. -/
def weight (below : Nat) : Nat := 1 <<< (33 * below)

theorem weight_pos (below : Nat) : 0 < weight below := by
  rw [weight, Nat.one_shiftLeft]
  exact Nat.two_pow_pos _

theorem weight_succ (below : Nat) : weight (below + 1) = 1 <<< 33 * weight below := by
  rw [weight, weight, Nat.one_shiftLeft, Nat.one_shiftLeft, Nat.one_shiftLeft, ← Nat.pow_add, Nat.mul_succ, Nat.add_comm]

/-- How much there may be to take, for cursors of at most `limit` depths. -/
def ahead (limit : Nat) (cursors : Array (Option Arc)) : Nat :=
  cursors.toList.zipIdx.foldl (fun n (cursor, depth) => n + (arcsAhead cursor + 1) * weight (limit - depth)) 0

theorem ahead_push (limit : Nat) (cursors : Array (Option Arc)) (cursor : Option Arc) : ahead limit (cursors.push cursor) =
    ahead limit cursors + (arcsAhead cursor + 1) * weight (limit - cursors.size) := by
  simp [ahead, List.zipIdx_append]

theorem ahead_pop {limit : Nat} {cursors : Array (Option Arc)} {cursor : Option Arc} (h : cursors.back? = some cursor) :
    ahead limit cursors.pop < ahead limit cursors := by
  obtain ⟨above, rfl⟩ := Array.back?_eq_some_iff.1 h
  rw [Array.pop_push, ahead_push]
  exact Nat.lt_add_of_pos_right (Nat.mul_pos (Nat.succ_pos _) (weight_pos _))

theorem ahead_take {A : Automaton} {limit : Nat} {labels : Bytes} {cursors : Array (Option Arc)} {a : Arc} {isFinal : Bool}
    {e : Enumeration} (hback : cursors.back? = some (some a)) (hlimit : cursors.size ≤ limit)
    (h : take A labels cursors.pop a = .ok (isFinal, e)) : ahead limit e.cursors < ahead limit cursors := by
  obtain ⟨above, rfl⟩ := Array.back?_eq_some_iff.1 hback
  rw [Array.pop_push, take] at h
  rw [Array.size_push] at hlimit
  cases hnext : A.nextArc a with
  | error f => simp [hnext, bind, Except.bind] at h
  | ok next =>
    cases henter : A.enter a with
    | error f => simp [hnext, henter, bind, Except.bind] at h
    | ok x =>
      obtain ⟨c, final, below⟩ := x
      simp only [hnext, henter, bind, Except.bind, pure, Except.pure, Except.ok.injEq, Prod.mk.injEq] at h
      obtain ⟨-, rfl⟩ := h
      have hlt := arcsAhead_lt hnext
      have hcursor : (arcsAhead next + 1 + 1) * weight (limit - above.size) ≤
          (arcsAhead (some a) + 1) * weight (limit - above.size) := Nat.mul_le_mul_right _ (by omega)
      rw [Nat.succ_mul] at hcursor
      cases below with
      | none =>
        have hpos := weight_pos (limit - above.size)
        simp only [Option.elim_none, ahead_push]
        omega
      | some b =>
        have hb : arcsAhead (some b) + 1 < 1 <<< 33 := by
          simp only [arcsAhead]
          omega
        have hdepth : limit - above.size = limit - (above.size + 1) + 1 := by omega
        have hbelow : (arcsAhead (some b) + 1) * weight (limit - (above.size + 1)) < weight (limit - above.size) := by
          rw [hdepth, weight_succ]
          exact Nat.mul_lt_mul_of_pos_right hb (weight_pos _)
        simp only [Option.elim_some, ahead_push, Array.size_push]
        omega

/-- Takes arcs until a word ends with one of them or none is left. A path of more than `limit` arcs counts as endless. -/
def next (A : Automaton) (limit : Nat) : Enumeration → Read (Option Word × Enumeration)
  | ⟨labels, cursors⟩ =>
    match hback : cursors.back? with
    | none => .ok (none, ⟨labels, cursors⟩)
    | some none =>
      have : ahead limit cursors.pop < ahead limit cursors := ahead_pop hback
      next A limit ⟨labels, cursors.pop⟩
    | some (some a) =>
      if hlimit : limit < cursors.size then .error .endless
      else match h : take A labels cursors.pop a with
        | .error f => .error f
        | .ok (true, e) => .ok (some e.labels.toList, e)
        | .ok (false, e) =>
          have := ahead_take hback (Nat.le_of_not_lt hlimit) h
          next A limit e
termination_by e => ahead limit e.cursors

theorem ahead_next {A : Automaton} {limit : Nat} {e e' : Enumeration} {w : Word}
    (h : next A limit e = .ok (some w, e')) : ahead limit e'.cursors < ahead limit e.cursors := by
  fun_induction next A limit e with
  | case1 => simp at h
  | case2 labels cursors hback hlt ih => exact Nat.lt_trans (ih h) hlt
  | case3 => simp at h
  | case4 => simp at h
  | case5 labels cursors a hback hlimit e htake =>
    simp only [Except.ok.injEq, Prod.mk.injEq] at h
    exact h.2 ▸ ahead_take hback (Nat.le_of_not_lt hlimit) htake
  | case6 labels cursors a hback hlimit e htake hlt ih => exact Nat.lt_trans (ih h) hlt

/-- The words that are still to come, the first `wanted` of them or all. -/
def words (A : Automaton) (limit : Nat) (wanted : Option Nat) (e : Enumeration) : Readout Word :=
  match h : next A limit e with
  | .error f => .fail f
  | .ok (none, _) => .done
  | .ok (some w, e') =>
    have := ahead_next h
    (Readout.one w).andThen wanted fun wanted => words A limit wanted e'
termination_by ahead limit e.cursors

end Enumeration

namespace Automaton

/-- A path that is longer than this meets some state more than `wanted + 1` times. Each way round adds a word, or else
the walk never comes back. -/
def depthFor (wanted : Option Nat) : Nat := 1 <<< 32 * (wanted.getD 0 + 1)

/-- The words spelled from a state, the first `wanted` of them or all. A word stands before the words that go on from it, and
the words of an arc before those of the next. -/
def wordsFrom (A : Automaton) (s : State) (wanted : Option Nat) : Readout Word :=
  match A.firstArc s with
  | .error f => .fail f
  | .ok a => Readout.done.andThen wanted fun wanted => Enumeration.words A (depthFor wanted) wanted ⟨#[], #[some a]⟩

/-- The accepted words, the first `wanted` of them or all. -/
def words (A : Automaton) (wanted : Option Nat) : Readout Word :=
  match A.root with
  | .error f => .fail f
  | .ok none => .done
  | .ok (some r) => A.wordsFrom r wanted

end Automaton

end WordAutomata
