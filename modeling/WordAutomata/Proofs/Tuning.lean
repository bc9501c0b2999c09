import WordAutomata.Proofs.CompactWriter

namespace WordAutomata

namespace CompactWriter

/-- Without cuts, no state is moved. -/
theorem bestLayout_unmoved {s : Subject} {baseline : Settled} (h : layout s [] = .ok baseline) (tuning : Tuning)
    (states : List State) : bestLayout s { tuning with cutStart := 0, cutEnd := 0 } states = .ok baseline := by
  rw [bestLayout, h, ok_bind]
  split
  · rfl
  · rw [search]
    split
    · simp [h]
    · rfl

section

variable (s : Subject) (movable : List State)

/-- Lays out over what has been laid out before, and tells the size. -/
def layOut (moved : List State) : StateT Settled (Except WriteError) Nat := do
  let l ← layout s moved
  set l
  return l.size

/-- Tries cuts over each other, and remembers of the best one only which it is and its size. -/
def searchOver (step last cut bestCut bestSize : Nat) : StateT Settled (Except WriteError) Nat :=
  if 0 < step ∧ cut ≤ last then do
    let size ← layOut s (movable.take cut)
    if _h : size < bestSize then searchOver step last (nextCut step cut) cut size else return bestCut
  else return bestCut
termination_by bestSize

/-- Leaves in place what the best cut comes to when it is laid out once more. -/
def layOutBest (tuning : Tuning) (states : List State) : StateT Settled (Except WriteError) Nat := do
  let movable := candidates s.graph states tuning.minInlinks
  let size ← layOut s []
  let cut ← if movable = [] then pure 0
    else searchOver s movable tuning.cutStep (min tuning.cutEnd movable.length) (min tuning.cutStart movable.length) 0 size
  layOut s (movable.take cut)

theorem run_layOut (moved : List State) (before : Settled) :
    (layOut s moved).run before = do let l ← layout s moved; return (l.size, l) := by
  cases h : layout s moved <;> simp [layOut, h]

/-- The best cut comes to the same when it is laid out once more, whatever has been laid out in between. -/
theorem run_searchOver (step last cut bestCut : Nat) {best : Settled} (hbest : layout s (movable.take bestCut) = .ok best)
    (before : Settled) :
    (do layOut s (movable.take (← searchOver s movable step last cut bestCut best.size))).run before =
      do let l ← search (fun cut => layout s (movable.take cut)) step last cut best; return (l.size, l) := by
  -- What is kept on the one side is what the cut remembered on the other side comes to.
  induction hn : best.size using Nat.strongRecOn generalizing cut bestCut best before with
  | ind n ih =>
    rw [search, searchOver, ← hn]
    split
    · rename_i hcut
      cases hfound : layout s (movable.take cut) with
      | error e => simp [run_layOut, hfound]
      | ok found =>
        by_cases hsmaller : found.size < best.size
        · have hrest := ih found.size (hn ▸ hsmaller) (nextCut step cut) cut hfound found rfl
          simpa [run_layOut, hfound, hsmaller] using hrest
        · simp [run_layOut, hfound, hsmaller, hbest]
    · simp [run_layOut, hbest]

theorem run_layOutBest (tuning : Tuning) (states : List State) (before : Settled) :
    (layOutBest s tuning states).run before = do let l ← bestLayout s tuning states; return (l.size, l) := by
  cases hbaseline : layout s [] with
  | error e => simp [layOutBest, bestLayout, run_layOut, hbaseline]
  | ok baseline =>
    by_cases hnone : candidates s.graph states tuning.minInlinks = []
    · simp [layOutBest, bestLayout, run_layOut, hbaseline, hnone]
    · have hsearch := run_searchOver s (candidates s.graph states tuning.minInlinks) tuning.cutStep
        (min tuning.cutEnd (candidates s.graph states tuning.minInlinks).length)
        (min tuning.cutStart (candidates s.graph states tuning.minInlinks).length) 0 hbaseline baseline
      simpa [layOutBest, bestLayout, run_layOut, hbaseline, hnone] using hsearch

end

/-- What an automaton is written as does not depend on the tuning, but for the layout. -/
theorem script_cases {w : CompactWriter} {A : Automaton} {script : Script} (h : w.script A = .ok script) {n : Nat}
    (hok : script.result = .ok n) : ∃ states s, A.survey = .ok states ∧ s.graph = A.graph ∧
      s.count.isSome = w.flags.numbers ∧ ∀ tuning,
        (CompactWriter.mk w.flags tuning).script A = .ok ((CompactWriter.mk w.flags tuning).writeSubject s states) := by
  rw [CompactWriter.script] at h
  split at h
  · obtain rfl := Except.ok.inj h
    cases hok
  · obtain ⟨states, hstates, h⟩ := bind_eq_ok.1 h
    cases hnumbers : w.flags.numbers with
    | false =>
      refine ⟨states, ⟨A.graph, .ofLabels (A.graph.labels states), none⟩, hstates, rfl, rfl, fun tuning => ?_⟩
      simp [CompactWriter.script, hstates, hnumbers]
    | true =>
      rw [hnumbers, if_pos rfl] at h
      obtain ⟨counts, hcounts, -⟩ := bind_eq_ok.1 h
      refine ⟨states, ⟨A.graph, .ofLabels (A.graph.labels states), some fun s => counts.getD s 0⟩, hstates, rfl, rfl,
        fun tuning => ?_⟩
      simp [CompactWriter.script, hstates, hnumbers, hcounts]

/-- Whatever the tuning, what has been written is the smallest layout of those that were tried. The one without moves is
among them and can be written as well. -/
theorem script_tuned {w : CompactWriter} {A : Automaton} {script : Script} (hscript : w.script A = .ok script)
    {sink : Sink} {n : Nat} (hok : (script.deliverTo sink).result = .ok n) :
    ∃ states s baseline ts best, A.survey = .ok states ∧ s.graph = A.graph ∧ s.count.isSome = w.flags.numbers ∧
      script = w.writeSubject s states ∧ Searched s w.tuning states baseline ts best ∧
      (∀ before, (layOutBest s w.tuning states).run before = .ok (best.2.size, best.2)) ∧
      script = (stages s best.2.pass).script ∧ n = (head s).length + best.2.size ∧
      (∀ t ∈ (0, baseline) :: ts, layout s ((candidates s.graph states w.tuning.minInlinks).take t.1) = .ok t.2 ∧
        n ≤ (head s).length + t.2.size) ∧
      ∃ unmoved n', ({ w with tuning := { w.tuning with cutStart := 0, cutEnd := 0 } } : CompactWriter).script A =
          .ok unmoved ∧ unmoved = (stages s baseline.pass).script ∧
        (unmoved.deliverTo .unlimited).result = .ok n' ∧ n ≤ n' := by
  have hresult : script.result = .ok n := (deliver_ok hok).1
  obtain ⟨states, s, hstates, hgraph, hcount, hwritten⟩ := script_cases hscript hresult
  obtain rfl := Except.ok.inj (hscript.symm.trans (hwritten w.tuning))
  obtain ⟨l, hl⟩ := bestLayout_of_writeSubject hresult
  obtain ⟨baseline, ts, cut, h⟩ := searched_of_bestLayout hl
  have hbest := writeSubject_eq hl
  have hn : n = (head s).length + l.size := by
    rw [hbest] at hresult
    exact (Except.ok.inj hresult).symm.trans (written_stages s l.pass)
  have hle (t : Nat × Settled) (ht : t ∈ (0, baseline) :: ts) : n ≤ (head s).length + t.2.size :=
    hn ▸ Nat.add_le_add_left (List.le_of_mem_argmin ht h.least) _
  have hunmoved := hwritten { w.tuning with cutStart := 0, cutEnd := 0 }
  rw [writeSubject_eq (bestLayout_unmoved h.baseline_eq w.tuning states)] at hunmoved
  have hagain (before : Settled) : (layOutBest s w.tuning states).run before = .ok (l.size, l) := by
    rw [run_layOutBest, hl]
    rfl
  exact ⟨states, s, baseline, ts, (cut, l), hstates, hgraph, hcount, rfl, h, hagain, hbest, hn,
    fun t ht => ⟨h.layout_eq t ht, hle t ht⟩, _, _, hunmoved, rfl, (deliver_unlimited _ _).1,
    written_stages s baseline.pass ▸ hle (0, baseline) List.mem_cons_self⟩

theorem script_tuned_shared : ∃ b script states s baseline ts best unmoved n',
    Builder.build [[97, 99], [98, 99]] = .ok b ∧
    ({ tuning := ⟨1, 1, 10, 0⟩ } : CompactWriter).script b.automaton = .ok script ∧
    (script.deliverTo ⟨some 19, false⟩).result = .ok 19 ∧ Searched s ⟨1, 1, 10, 0⟩ states baseline ts best ∧
    script = (stages s best.2.pass).script ∧
    ({ tuning := ⟨0, 1, 0, 0⟩ } : CompactWriter).script b.automaton = .ok unmoved ∧
    (unmoved.deliverTo .unlimited).result = .ok n' ∧ 19 ≤ n' := by
  have hrun : (do
      let b ← (Builder.build [[97, 99], [98, 99]]).toOption
      let script ← (({ tuning := ⟨1, 1, 10, 0⟩ } : CompactWriter).script b.automaton).toOption
      return (script.deliverTo ⟨some 19, false⟩).result) = some (.ok 19) := by cbv
  simp only [Option.bind_eq_bind, Option.bind_eq_some_iff, toOption_eq_some, Option.pure_def, Option.some.injEq] at hrun
  obtain ⟨b, hb, script, hscript, hok⟩ := hrun
  obtain ⟨states, s, baseline, ts, best, -, -, -, -, hsearched, -, hbest, -, -, unmoved, n', hunmoved, -, hdone, hle⟩ :=
    script_tuned hscript hok
  exact ⟨b, script, states, s, baseline, ts, best, unmoved, n', hb, hscript, hok, hsearched, hbest, hunmoved, hdone, hle⟩

end CompactWriter

end WordAutomata
