import WordAutomata.Proofs.Spelling

namespace WordAutomata

open Std (TreeMap)

/-- What some states of a graph and their arcs amount to. -/
def Graph.size (G : Graph) (order : List State) (sequences : Nat) : Automaton.Info where
  states := order.length
  arcs := (order.flatMap G.row).length
  finalArcs := ((order.flatMap G.row).filter fun t => t.isFinal).length
  terminalArcs := ((order.flatMap G.row).filter fun t => t.target.isNone).length
  sequences := sequences

namespace Automaton

variable {A : Automaton}

/-- As long as the sums fit their word, a count is what the arcs of a state come to. -/
theorem countAlong_exact (hread : A.Readable) {count : State → Nat} {order : List State} {done : State → Prop}
    (horder : A.graph.ChildrenFirst done order) (hreach : ∀ s ∈ order, A.graph.Reachable s)
    (hcount : ∀ s ∈ order, count s = totalBelow count (A.graph.row s) ∧ count s < 2 ^ 64) {counts : TreeMap State Nat}
    (h : ∀ t, done t → counts[t]? = some (count t)) :
    ∃ counts', order.foldlM (fun counts s => do
        return counts.insert s (← (← A.branches s).foldlM (countArc addExact counts) 0)) counts = .ok counts' ∧
      ∀ t, done t ∨ t ∈ order → counts'[t]? = some (count t) := by
  induction order generalizing done counts with
  | nil => exact ⟨counts, rfl, by simpa using h⟩
  | cons s order ih =>
    obtain ⟨hs, htargets, horder⟩ := horder
    obtain ⟨htotal, hsmall⟩ := hcount s (by simp)
    have hmem (t : State) (ht : t ∈ A.graph.targets s) : t ∈ counts := by
      rw [TreeMap.mem_iff_isSome_getElem?, h t (htargets t ht)]
      rfl
    have hbelow : totalBelow (counts.getD · 0) (A.graph.row s) = count s := by
      rw [htotal]
      refine totalBelow_congr fun t ht => ?_
      rw [TreeMap.getD_eq_getD_getElem?, h t (htargets t ht), Option.getD_some]
    have hadd (m k : Nat) (hle : m + k ≤ 0 + totalBelow (counts.getD · 0) (A.graph.row s)) :
        addExact m k = .ok (m + k) := if_pos (show m + k < 2 ^ 64 by omega)
    have hfold := foldlM_countArc id (A.graph.row s) hmem hadd
    rw [hbelow, Nat.zero_add] at hfold
    have hinsert (t : State) (ht : done t ∨ t = s) : (counts.insert s (count s))[t]? = some (count t) := by
      rw [TreeMap.getElem?_insert]
      rcases ht with ht | rfl
      · have hne : s ≠ t := fun h => hs (h ▸ ht)
        simp [Std.LawfulEqCmp.compare_eq_iff_eq, hne, h t ht]
      · simp
    obtain ⟨counts', heq, h'⟩ := ih horder (fun t ht => hreach t (List.mem_cons_of_mem s ht))
      (fun t ht => hcount t (List.mem_cons_of_mem s ht)) hinsert
    refine ⟨counts', ?_, ?_⟩
    · simp only [id] at hfold
      simpa [hread.branches (hreach s (by simp)), hfold] using heq
    · simpa [or_assoc] using h'

theorem Readable.info_eq (hread : A.Readable) (hacyclic : A.graph.Acyclic) {depth : Nat}
    (hshallow : ∀ s, A.graph.Reachable s → A.graph.Shallow depth s)
    (hsmall : (A.graph.root.elim [] (A.graph.spelled depth)).length < 2 ^ 64) :
    ∃ order, A.graph.Ordered order ∧
      A.info = .ok (A.graph.size order (A.graph.root.elim [] (A.graph.spelled depth)).length) := by
  obtain ⟨order, heq, horder, -, hfirst⟩ := hread.postorder
  have hreach (s : State) (hs : s ∈ order) : A.graph.Reachable s := (horder.mem_iff s).1 hs
  have hbranches : order.mapM A.branches =
      .ok (order.map fun s => (A.graph.row s).map fun t => (t.isFinal, t.target)) :=
    mapM_eq_map fun s hs => hread.branches (hreach s hs)
  have hempty (t : State) (ht : False) : (∅ : TreeMap State Nat)[t]? = some (A.graph.spelled depth t).length := ht.elim
  have hlength (s : State) (hs : s ∈ order) := And.intro (Graph.length_spelled (hshallow s (hreach s hs)))
    (Nat.lt_of_le_of_lt (Graph.length_spelled_le_root hshallow (hreach s hs)) hsmall)
  obtain ⟨counts, hcounts, hcount⟩ := countAlong_exact hread (hfirst hacyclic) hreach hlength hempty
  have hroot (r : State) (hr : A.graph.root = some r) : counts.getD r 0 = (A.graph.spelled depth r).length := by
    rw [TreeMap.getD_eq_getD_getElem?, hcount r (.inr ((horder.mem_iff r).2 (.root hr))), Option.getD_some]
  have hflatten : (order.map fun s => (A.graph.row s).map fun t => (t.isFinal, t.target)).flatten =
      (order.flatMap A.graph.row).map fun t => (t.isFinal, t.target) := by
    rw [List.map_flatMap, List.flatMap_def]
  refine ⟨order, horder, ?_⟩
  rw [Automaton.info, Readout.all_eq_ok.2 heq, ok_bind, hbranches, ok_bind, countAlong, hcounts, ok_bind, hread.root, ok_bind,
    hflatten]
  cases hr : A.graph.root with
  | none => simp [Graph.size, List.filter_map, Function.comp_def]
  | some r => simp [Graph.size, List.filter_map, Function.comp_def, hroot r hr]

/-- Without cycles, each reachable state and no other has a count, the number of the words spelled from it or the largest
number of 32 bits; and if the words can be counted with 64 bits, what is told of the size is exact. -/
theorem Readable.census (hread : A.Readable) (hacyclic : A.graph.Acyclic) :
    (∃ counts, A.counts = .ok counts ∧ (∀ s, s ∈ counts ↔ A.graph.Reachable s) ∧
      ∀ s, A.graph.Reachable s →
        ∃ W, A.wordsFrom s none = ⟨W, none⟩ ∧ counts[s]? = some (min W.length (2 ^ 32 - 1))) ∧
    ∃ W, A.words none = ⟨W, none⟩ ∧
      (W.length < 2 ^ 64 → ∃ order, A.graph.Ordered order ∧ A.info = .ok (A.graph.size order W.length)) := by
  obtain ⟨depth, hlarge, hdepth⟩ := exists_depth
  have hshallow (s : State) (hs : A.graph.Reachable s) : A.graph.Shallow depth s := hacyclic.shallow hlarge hs
  constructor
  · obtain ⟨counts, hok, hcounted⟩ := hread.counts hacyclic
    refine ⟨counts, hok, hcounted.mem_iff, fun s hs => ⟨_, hread.wordsFrom_eq hs (hshallow s hs) (hdepth none), ?_⟩⟩
    rw [hcounted.getElem? hs, (hshallow s hs).count_eq hcounted hs]
    rfl
  · exact ⟨_, hread.words_spelled hshallow (hdepth none), hread.info_eq hacyclic hshallow⟩

/-- Two arcs lead to one state, and three words to the end. -/
theorem census_shared : ∃ (b : RecordBuffer) (r : State) (counts : TreeMap State Nat) (order : List State),
    Builder.build [[97], [97, 99], [98, 99]] = .ok b ∧ b.automaton.root = .ok (some r) ∧ b.automaton.counts = .ok counts ∧
    counts[r]? = some 3 ∧ b.automaton.graph.Ordered order ∧ b.automaton.graph.size order 3 = ⟨2, 3, 2, 1, 3⟩ := by
  have hrun : (do
      let b ← (Builder.build [[97], [97, 99], [98, 99]]).toOption
      let r ← (← b.automaton.root.toOption)
      return (r, b.automaton.info)) = some (⟨12⟩, .ok ⟨2, 3, 2, 1, 3⟩) := by cbv
  simp only [Option.bind_eq_bind, Option.bind_eq_some_iff, toOption_eq_some, Option.pure_def, Option.some.injEq,
    Prod.mk.injEq] at hrun
  obtain ⟨b, hb, root, hroot, r, rfl, rfl, hinfo⟩ := hrun
  obtain ⟨p, root, rfl, h⟩ := Builder.finished_of_build hb
  obtain ⟨⟨counts, hcounts, -, hcount⟩, W, hW, hsize⟩ := h.readable.census h.acyclic
  obtain rfl : [[97], [97, 99], [98, 99]] = W := congrArg Readout.items (h.words_reader.symm.trans hW)
  obtain ⟨order, horder, hinfo'⟩ := hsize (by decide)
  obtain ⟨W, hwords, hthree⟩ := hcount ⟨12⟩ (.root (graph_root hroot))
  have hsame : (p.reader root).words none = (p.reader root).wordsFrom ⟨12⟩ none := by
    have hroot' : (p.reader root).root = .ok (some ⟨12⟩) := hroot
    rw [words, hroot']
  obtain rfl : [[97], [97, 99], [98, 99]] = W := congrArg Readout.items (hW.symm.trans (hsame.trans hwords))
  exact ⟨_, ⟨12⟩, counts, order, hb, hroot, hcounts, hthree, horder, Except.ok.inj (hinfo'.symm.trans hinfo)⟩

end Automaton

end WordAutomata
