import WordAutomata.Proofs.Matching
import WordAutomata.Proofs.Unwritten

namespace WordAutomata

namespace Graph

variable {G : Graph} {depth : Nat} {W : List Word} {s : State}

/-- What is spelled from a state are the ends of words with one beginning. -/
theorem Spells.exists_before (h : G.Spells depth W) (hs : G.Reachable s) : ∃ u, ∀ w ∈ G.spelled depth s, u ++ w ∈ W := by
  induction hs with
  | root hr => exact ⟨[], fun w hw => by rwa [← h.words_eq, hr]⟩
  | @step s t hs ht ih =>
    obtain ⟨u, hu⟩ := ih
    obtain ⟨a, ha, htarget⟩ := mem_targets.1 ht
    refine ⟨u ++ [a.label], fun w hw => ?_⟩
    rw [List.append_assoc]
    exact hu _ ((cons_mem_spelled (h.shallow s hs)).2 ⟨a, ha, rfl, .inr ⟨t, htarget, hw⟩⟩)

/-- Some word goes on with the arc. -/
theorem Trim.exists_cons_mem_spelled (htrim : G.Trim) (h : ∀ s, G.Reachable s → G.Shallow depth s) (hs : G.Reachable s)
    {t : Transition} (ht : t ∈ G.row s) : ∃ w, t.label :: w ∈ G.spelled depth s := by
  cases hu : t.target with
  | none => exact ⟨[], (cons_mem_spelled (h s hs)).2 ⟨t, ht, rfl, .inl ⟨rfl, (htrim s hs).2 t ht hu⟩⟩⟩
  | some u =>
    have hreach : G.Reachable u := .step hs (mem_targets.2 ⟨t, ht, hu⟩)
    obtain ⟨w, hw⟩ := htrim.exists_mem_spelled hreach (h u hreach)
    exact ⟨w, (cons_mem_spelled (h s hs)).2 ⟨t, ht, rfl, .inr ⟨u, hu, hw⟩⟩⟩

/-- Each byte of a word is the label of an arc on its way. -/
theorem exists_label_of_mem (h : ∀ s, G.Reachable s → G.Shallow depth s) (hs : G.Reachable s) {v : Word}
    (hv : v ∈ G.spelled depth s) {c : UInt8} (hc : c ∈ v) : ∃ u, G.Reachable u ∧ ∃ t ∈ G.row u, t.label = c := by
  induction v generalizing s with
  | nil => cases hc
  | cons d v ih =>
    obtain ⟨t, ht, rfl, hrest⟩ := (cons_mem_spelled (h s hs)).1 hv
    rcases List.mem_cons.1 hc with rfl | hc
    · exact ⟨s, hs, t, ht, rfl⟩
    · rcases hrest with ⟨rfl, -⟩ | ⟨u, hu, hv⟩
      · cases hc
      · exact ih (.step hs (mem_targets.2 ⟨t, ht, hu⟩)) hv hc

theorem Spells.exists_label_iff (h : G.Spells depth W) (htrim : G.Trim) (c : UInt8) :
    (∃ s, G.Reachable s ∧ ∃ t ∈ G.row s, t.label = c) ↔ ∃ v ∈ W, c ∈ v := by
  constructor
  · rintro ⟨s, hs, t, ht, rfl⟩
    obtain ⟨u, hu⟩ := h.exists_before hs
    obtain ⟨w, hw⟩ := htrim.exists_cons_mem_spelled h.shallow hs ht
    exact ⟨_, hu _ hw, by simp⟩
  · rintro ⟨v, hv, hc⟩
    rw [← h.words_eq] at hv
    cases hr : G.root with
    | none => simp [hr] at hv
    | some r => exact exists_label_of_mem h.shallow (.root hr) (by simpa [hr] using hv) hc

end Graph

namespace UniformWriter

/-- Bytes that are the same are refused before the labels are looked at. -/
theorem separatorConflict?_insert {w : UniformWriter} {A : Automaton} {used : Bool}
    (hused : usesLabel A w.filler = .ok used) :
    ({ w with flags := w.flags.insert .separators } : UniformWriter).separatorConflict? A =
      .ok (if w.filler = w.annotation then some (.separatorConflict (.same w.filler))
        else if used then some (.separatorConflict (.fillerIsLabel w.filler)) else none) := by
  have hflag : (w.flags.insert .separators).separators = true := Bool.or_true _
  rw [separatorConflict?, hflag, hused]
  by_cases hsame : w.filler = w.annotation
  · simp [hsame]
  · cases used <;> simp [hsame]

/-- What is written does not tell whether the separators have been checked. -/
theorem script_insert_separators {w : UniformWriter} {A : Automaton} (hplain : w.separatorConflict? A = .ok none)
    (hchecked : ({ w with flags := w.flags.insert .separators } : UniformWriter).separatorConflict? A = .ok none) :
    ({ w with flags := w.flags.insert .separators } : UniformWriter).script A = w.script A := by
  have hnumbers : (w.flags.insert .separators).numbers = w.flags.numbers := Bool.or_false _
  rw [script, script, unsupported?_eq, unsupported?_eq, hplain, hchecked, hnumbers]
  rfl

/-- An automaton of words is written with separators exactly if they differ and the filler stands in no word, and then it is
written as without. -/
theorem build_separated {W : List Word} {b : RecordBuffer} (hb : Builder.build W = .ok b) (w : UniformWriter)
    (hw : w.flags.separators = false) : ∃ plain checked, w.script b.automaton = .ok plain ∧
      ({ w with flags := w.flags.insert .separators } : UniformWriter).script b.automaton = .ok checked ∧
      plain.result = .ok plain.bytes.length ∧
      ((∃ what, checked.result = .error (.separatorConflict what)) ↔ w.filler = w.annotation ∨ ∃ v ∈ W, w.filler ∈ v) ∧
      (¬(w.filler = w.annotation ∨ ∃ v ∈ W, w.filler ∈ v) → checked = plain) := by
  obtain ⟨p, root, rfl, h⟩ := Builder.finished_of_build hb
  obtain ⟨depth, -, hspells⟩ := h.spells
  obtain ⟨used, hused, hiff⟩ := usesLabel_iff h.readable w.filler
  rw [hspells.exists_label_iff h.trim] at hiff
  have hplain : w.separatorConflict? (p.reader root) = .ok none := by
    rw [separatorConflict?, hw]
    rfl
  obtain ⟨plain, hscript, hresult, -⟩ := w.script_restored h.readable (fun _ => h.acyclic) hplain
  have hconflict := separatorConflict?_insert hused
  by_cases hsame : w.filler = w.annotation
  · rw [if_pos hsame] at hconflict
    exact ⟨plain, _, hscript, script_of_conflict hconflict, hresult, ⟨fun _ => .inl hsame, fun _ => ⟨_, rfl⟩⟩,
      fun hnot => absurd (.inl hsame) hnot⟩
  · rw [if_neg hsame] at hconflict
    cases used with
    | true =>
      have hword := hiff.1 rfl
      exact ⟨plain, _, hscript, script_of_conflict hconflict, hresult, ⟨fun _ => .inr hword, fun _ => ⟨_, rfl⟩⟩,
        fun hnot => absurd (.inr hword) hnot⟩
    | false =>
      have hword : ¬∃ v ∈ W, w.filler ∈ v := fun hword => Bool.false_ne_true (hiff.2 hword)
      refine ⟨plain, plain, hscript, (script_insert_separators hplain hconflict).trans hscript, hresult, ?_, fun _ => rfl⟩
      rw [hresult]
      simp [hsame, hword]

/-- The annotation separator may stand in a word, the filler may not. -/
theorem build_separated_plus : ∃ b refused taken, Builder.build [[97, 43, 98], [99]] = .ok b ∧
    ({ flags := .insert .empty .separators, filler := 43, annotation := 120 } : UniformWriter).script b.automaton =
      .ok refused ∧ (∃ what, refused.result = .error (.separatorConflict what)) ∧
    ({ flags := .insert .empty .separators, filler := 120, annotation := 43 } : UniformWriter).script b.automaton =
      .ok taken ∧ taken.result = .ok taken.bytes.length := by
  have hrun : (Builder.build [[97, 43, 98], [99]]).toOption.isSome = true := by cbv
  obtain ⟨b, hb⟩ := Option.isSome_iff_exists.1 hrun
  rw [toOption_eq_some] at hb
  obtain ⟨-, refused, -, hrefused, -, hconflict, -⟩ := build_separated hb { filler := 43, annotation := 120 } rfl
  obtain ⟨plain, taken, -, htaken, hresult, -, hsame⟩ := build_separated hb { filler := 120, annotation := 43 } rfl
  obtain rfl := hsame (by decide)
  exact ⟨b, refused, taken, hb, hrefused, hconflict.2 (by decide), htaken, hresult⟩

end UniformWriter

end WordAutomata
