import WordAutomata.Proofs.Minimal
import WordAutomata.Proofs.Plan

namespace WordAutomata

open Std (TreeMap)

namespace Transition

theorem words_map (f : State → State) (below : State → List Word) (t : Transition) :
    (t.map f).words below = t.words fun s => below (f s) := by
  cases ht : t.target <;> simp [words, map, ht]

theorem length_words (below : State → List Word) (t : Transition) :
    (t.words below).length = (if t.isFinal then 1 else 0) + t.target.elim 0 fun s => (below s).length := by
  cases hf : t.isFinal <;> cases ht : t.target <;> simp [words, hf, ht, Nat.add_comm]

end Transition

theorem length_flatMap_words (below : State → List Word) (ts : List Transition) :
    (ts.flatMap (Transition.words below)).length = totalBelow (fun s => (below s).length) ts := by
  simp [List.length_flatMap, totalBelow, Transition.length_words]

namespace Graph

variable {G H : Graph}

theorem min_totalBelow (count : State → Nat) (ts : List Transition) :
    min (totalBelow (fun s => min (count s) maxCount) ts) maxCount = min (totalBelow count ts) maxCount := by
  induction ts with
  | nil => rfl
  | cons t ts ih =>
    rw [totalBelow_cons, totalBelow_cons]
    cases t.target with
    | none =>
      rw [Option.elim_none, Option.elim_none]
      omega
    | some u =>
      rw [Option.elim_some, Option.elim_some]
      omega

theorem Shallow.count_eq {counts : TreeMap State Nat} (hcounts : Counted G counts G.Reachable) {depth : Nat}
    {s : State} (hs : G.Reachable s) (h : G.Shallow depth s) :
    counts.getD s 0 = min (G.spelled depth s).length maxCount := by
  induction depth generalizing s with
  | zero => exact h.elim
  | succ depth ih =>
    have hbelow : totalBelow (counts.getD · 0) (G.row s) =
        totalBelow (fun u => min (G.spelled depth u).length maxCount) (G.row s) :=
      totalBelow_congr fun u hu => ih (.step hs hu) (h u hu)
    rw [hcounts.count_eq s hs, hbelow, min_totalBelow, spelled, length_flatMap_words]

theorem length_spelled {depth : Nat} {s : State} (h : G.Shallow depth s) :
    (G.spelled depth s).length = totalBelow (fun t => (G.spelled depth t).length) (G.row s) := by
  rw [spelled_eq h, length_flatMap_words]

/-- No state spells more words than the root. -/
theorem length_spelled_le_root {depth : Nat} (h : ∀ s, G.Reachable s → G.Shallow depth s) {s : State}
    (hs : G.Reachable s) : (G.spelled depth s).length ≤ (G.root.elim [] (G.spelled depth)).length := by
  induction hs with
  | root hr => simp [hr]
  | @step s t hs ht ih =>
    refine Nat.le_trans ?_ ih
    rw [length_spelled (h s hs)]
    exact le_totalBelow (fun t => (G.spelled depth t).length) ht

theorem Shallow.not_transGen {depth : Nat} {s : State} (h : G.Shallow depth s) : ¬Relation.TransGen G.Leads s s := by
  have hstep {n : Nat} {t u : State} (ht : G.Shallow n t) (htu : G.Leads t u) : ∃ m, m < n ∧ G.Shallow m u := by
    cases n with
    | zero => exact ht.elim
    | succ n => exact ⟨n, Nat.lt_succ_self n, ht u htu⟩
  have hpath {n : Nat} {t u : State} (htu : Relation.TransGen G.Leads t u) (ht : G.Shallow n t) :
      ∃ m, m < n ∧ G.Shallow m u := by
    induction htu with
    | single htu => exact hstep ht htu
    | tail _ huv ih =>
      obtain ⟨m, hm, hu⟩ := ih
      obtain ⟨k, hk, hv⟩ := hstep hu huv
      exact ⟨k, Nat.lt_trans hk hm, hv⟩
  intro hcycle
  induction depth using Nat.strong_induction_on with
  | _ n ih =>
    obtain ⟨m, hm, hs⟩ := hpath hcycle h
    exact ih m hm hs

namespace Iso

variable {f : State → State} (h : G.Iso H f)

include h

theorem reachable {s : State} (hs : G.Reachable s) : H.Reachable (f s) := h.bijOn.mapsTo hs

theorem targets_eq {s : State} (hs : G.Reachable s) : H.targets (f s) = (G.targets s).map f := by
  have htarget (t : Transition) : (t.map f).target = t.target.map f := rfl
  simp [targets, h.row_eq s hs, List.filterMap_map, List.map_filterMap, htarget]

theorem mem_targets {s t : State} (hs : G.Reachable s) : t ∈ H.targets (f s) ↔ ∃ u ∈ G.targets s, f u = t := by
  rw [h.targets_eq hs, List.mem_map]

theorem spelled_eq (depth : Nat) {s : State} (hs : G.Reachable s) : H.spelled depth (f s) = G.spelled depth s := by
  induction depth generalizing s with
  | zero => rfl
  | succ depth ih =>
    rw [spelled, spelled, h.row_eq s hs, List.flatMap_map]
    refine List.flatMap_congr fun t ht => ?_
    rw [Transition.words_map]
    refine Transition.words_congr fun u hu => ih ?_
    exact .step hs (Graph.mem_targets.2 ⟨t, ht, hu⟩)

theorem shallow {depth : Nat} {s : State} (hs : G.Reachable s) (hshallow : G.Shallow depth s) :
    H.Shallow depth (f s) := by
  induction depth generalizing s with
  | zero => exact hshallow.elim
  | succ depth ih =>
    intro t ht
    obtain ⟨u, hu, rfl⟩ := (h.mem_targets hs).1 ht
    exact ih (.step hs hu) (hshallow u hu)

end Iso

/-- The graph has no long paths, the arcs of a state come in the order of their labels, and some words are spelled. -/
structure Spells (G : Graph) (depth : Nat) (W : List Word) : Prop where
  shallow : ∀ s, G.Reachable s → G.Shallow depth s
  ascending : ∀ s, G.Reachable s → (G.row s).Pairwise fun t u => t.label < u.label
  words_eq : G.root.elim [] (G.spelled depth) = W

namespace Spells

variable {depth : Nat} {W : List Word} (h : G.Spells depth W)

include h

theorem acyclic : G.Acyclic := fun s hs => (h.shallow s hs).not_transGen

theorem of_iso {f : State → State} (hiso : G.Iso H f) : H.Spells depth W := by
  refine ⟨?_, ?_, ?_⟩
  · intro t ht
    obtain ⟨s, hs, rfl⟩ := hiso.bijOn.surjOn ht
    exact hiso.shallow hs (h.shallow s hs)
  · intro t ht
    obtain ⟨s, hs, rfl⟩ := hiso.bijOn.surjOn ht
    rw [hiso.row_eq s hs]
    exact List.pairwise_map.2 (h.ascending s hs)
  · rw [hiso.root_eq, ← h.words_eq]
    cases hr : G.root with
    | none => rfl
    | some r => exact hiso.spelled_eq depth (.root hr)

/-- No state spells more words than there are. -/
theorem length_spelled_le {s : State} (hs : G.Reachable s) : (G.spelled depth s).length ≤ W.length :=
  h.words_eq ▸ length_spelled_le_root h.shallow hs

/-- The count of a state is the number of its words, or the largest count if there are more. -/
theorem count_eq {counts : TreeMap State Nat} (hcounts : Counted G counts G.Reachable) {s : State}
    (hs : G.Reachable s) : counts.getD s 0 = min (G.spelled depth s).length maxCount :=
  (h.shallow s hs).count_eq hcounts hs

end Spells

end Graph

namespace Automaton

variable {A : Automaton}

theorem Readable.wordsFrom_eq (hread : A.Readable) {depth : Nat} {s : State} (hs : A.graph.Reachable s)
    (hshallow : A.graph.Shallow depth s) (hdepth : depth ≤ depthFor none) :
    A.wordsFrom s none = ⟨A.graph.spelled depth s, none⟩ :=
  hread.legible.wordsFrom_eq hs hshallow hdepth

theorem Readable.words_spelled (hread : A.Readable) {depth : Nat} (h : ∀ s, A.graph.Reachable s → A.graph.Shallow depth s)
    (hdepth : depth ≤ depthFor none) : A.words none = ⟨A.graph.root.elim [] (A.graph.spelled depth), none⟩ := by
  rw [words, hread.root]
  cases hr : A.graph.root with
  | none => rfl
  | some r => exact hread.wordsFrom_eq (.root hr) (h r (.root hr)) hdepth

theorem Readable.words_eq (hread : A.Readable) {depth : Nat} {W : List Word} (h : A.graph.Spells depth W)
    (hdepth : depth ≤ depthFor none) : A.words none = ⟨W, none⟩ :=
  h.words_eq ▸ hread.words_spelled h.shallow hdepth

end Automaton

namespace Builder.Finished

variable {W : List Word} {p : Pool} {root : UInt32} (h : Finished W p root)

include h

theorem spells : ∃ depth, depth ≤ Automaton.depthFor none ∧ (p.reader root).graph.Spells depth W := by
  have hstates := h.opened.pool.states
  have hsmall : Frozen.behind p.states < 2 ^ 32 := h.opened.pool.small
  have hlimit : Automaton.depthFor none = 2 ^ 32 := rfl
  refine ⟨Frozen.behind p.states, by omega, ?_, ?_, ?_⟩
  · intro s hs
    obtain ⟨rs, hrow⟩ := h.reachable_iff.1 hs
    exact h.shallow hs (Frozen.lt_behind hstates hrow)
  · intro s hs
    obtain ⟨rs, hrow⟩ := h.reachable_iff.1 hs
    have hasc := (Frozen.proper_of_row hstates hrow).ascending
    obtain ⟨a⟩ := s
    rw [Pool.graph_row h.opened.pool hrow]
    exact List.pairwise_map.2 hasc
  · rcases h.root_cases with ⟨hzero, hW⟩ | ⟨rs, hrow⟩
    · rw [Pool.graph_root, if_pos hzero, hW]
      rfl
    · have hroot : (p.reader root).graph.root = some ⟨root⟩ := by
        rw [Pool.graph_root, if_neg (Frozen.ne_zero_of_row hrow)]
      have hreach : (p.reader root).graph.Reachable ⟨root⟩ := .root hroot
      have hlt : root.toNat < Frozen.behind p.states := Frozen.lt_behind hstates hrow
      rw [hroot, Option.elim_some, h.spelled_eq hrow hlt, h.words_eq]

end Builder.Finished

end WordAutomata
