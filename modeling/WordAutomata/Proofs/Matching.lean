import WordAutomata.Proofs.Copies
import WordAutomata.Proofs.Saturation

namespace WordAutomata

/-- How much of a word some words begin with: the length of the longest such beginning. -/
def SharesAtMost (L : List Word) (w : Word) (k : Nat) : Prop := IsGreatest {n | ∃ v ∈ L, w.take n <+: v} k

/-- The answer that a word deserves, by what it is to the words spelled from a state. -/
inductive Automaton.Answers (A : Automaton) (L : List Word) (w : Word) : Match → Prop
  | exact : w ∈ L → Answers A L w .exact
  /-- Words of the state go on from `w`; from the state told, their ends are spelled. -/
  | sequenceIsPrefix {t : State} {ends : List Word} : w ∉ L → w = [] ∨ (∃ v ∈ L, w <+: v ∧ w ≠ v) →
      A.wordsFrom t none = ⟨ends, none⟩ → (∀ v, v ∈ ends ↔ v ≠ [] ∧ w ++ v ∈ L) → Answers A L w (.sequenceIsPrefix t)
  | automatonHasPrefix {k : Nat} : w ≠ [] → (∀ v ∈ L, ¬w <+: v) → SharesAtMost L w k → 0 < k →
      Answers A L w (.automatonHasPrefix k)
  | noMatch : w ≠ [] → (∀ v ∈ L, ¬w <+: v) → SharesAtMost L w 0 → Answers A L w .noMatch

namespace Graph

/-- No arc is in vain: one that does not lead on ends words. -/
def Trim (G : Graph) : Prop := ∀ s, G.Reachable s → G.row s ≠ [] ∧ ∀ t ∈ G.row s, t.target = none → t.isFinal = true

variable {G : Graph} {depth : Nat} {s : State}

theorem cons_mem_spelled (h : G.Shallow depth s) {c : UInt8} {w : Word} :
    c :: w ∈ G.spelled depth s ↔ ∃ t ∈ G.row s, t.label = c ∧
      (w = [] ∧ t.isFinal = true ∨ ∃ u, t.target = some u ∧ w ∈ G.spelled depth u) := by
  rw [spelled_eq h, List.mem_flatMap]
  exact exists_congr fun t => and_congr_right fun _ => Transition.cons_mem_words

/-- Every state of a trim graph spells some word. -/
theorem Trim.exists_mem_spelled (htrim : G.Trim) (hs : G.Reachable s) (h : G.Shallow depth s) :
    ∃ w, w ∈ G.spelled depth s := by
  induction depth generalizing s with
  | zero => exact h.elim
  | succ depth ih =>
    obtain ⟨hne, hends⟩ := htrim s hs
    obtain ⟨t, ht⟩ := List.exists_mem_of_ne_nil _ hne
    cases hu : t.target with
    | none => exact ⟨[t.label], List.mem_flatMap.2 ⟨t, ht, Transition.cons_mem_words.2 ⟨rfl, .inl ⟨rfl, hends t ht hu⟩⟩⟩⟩
    | some u =>
      have hmem : u ∈ G.targets s := mem_targets.2 ⟨t, ht, hu⟩
      obtain ⟨w, hw⟩ := ih (.step hs hmem) (h u hmem)
      exact ⟨t.label :: w, List.mem_flatMap.2 ⟨t, ht, Transition.cons_mem_words.2 ⟨rfl, .inr ⟨u, hu, hw⟩⟩⟩⟩

/-- The words that begin with the label of an arc are those of this arc, no other arc of the state having the label. -/
theorem Spells.cons_mem_iff {W : List Word} (h : G.Spells depth W) (hs : G.Reachable s) {t : Transition}
    (ht : t ∈ G.row s) (v : Word) : t.label :: v ∈ G.spelled depth s ↔
      v = [] ∧ t.isFinal = true ∨ v ∈ t.target.elim [] (G.spelled depth) := by
  have hnodup : ((G.row s).map Transition.label).Nodup := List.pairwise_map.2 ((h.ascending s hs).imp UInt8.ne_of_lt)
  have hbelow : v ∈ t.target.elim [] (G.spelled depth) ↔ ∃ u, t.target = some u ∧ v ∈ G.spelled depth u := by
    cases t.target <;> simp
  rw [cons_mem_spelled (h.shallow s hs), hbelow]
  refine ⟨?_, fun hv => ⟨t, ht, rfl, hv⟩⟩
  rintro ⟨t', ht', hlabel, hv⟩
  rwa [List.inj_on_of_nodup_map hnodup ht' ht hlabel] at hv

end Graph

/-- A label more in front of what may follow it. -/
theorem sharesAtMost_cons {L : List Word} {c : UInt8} {w : Word} {k : Nat} (below : Word → Prop)
    (hbelow : ∀ v, below v → c :: v ∈ L) (hcons : ∀ v, c :: v ∈ L → v = [] ∨ below v)
    (h : IsGreatest {n | ∃ v, below v ∧ w.take n <+: v} k) : SharesAtMost L (c :: w) (k + 1) := by
  obtain ⟨⟨v, hv, hprefix⟩, hgreatest⟩ := h
  refine ⟨⟨c :: v, hbelow v hv, by simpa using hprefix⟩, ?_⟩
  rintro n ⟨v', hv', hprefix'⟩
  cases n with
  | zero => omega
  | succ n =>
    obtain ⟨rest, hrest⟩ := hprefix'
    rw [List.take_succ_cons, List.cons_append] at hrest
    have hn : n ∈ {n | ∃ v, below v ∧ w.take n <+: v} := by
      rcases hcons (w.take n ++ rest) (hrest ▸ hv') with hnil | hmem
      · exact ⟨v, hv, by simp [(List.append_eq_nil_iff.1 hnil).1]⟩
      · exact ⟨_, hmem, List.prefix_append _ _⟩
    exact Nat.succ_le_succ (hgreatest hn)

theorem sharesAtMost_zero {L : List Word} {c : UInt8} {w : Word} (hL : ∃ v, v ∈ L) (hother : ∀ v, c :: v ∉ L) :
    SharesAtMost L (c :: w) 0 := by
  obtain ⟨v, hv⟩ := hL
  refine ⟨⟨v, hv, List.nil_prefix⟩, ?_⟩
  rintro n ⟨v', hv', rest, hrest⟩
  cases n with
  | zero => exact Nat.le_refl 0
  | succ n =>
    rw [List.take_succ_cons, List.cons_append] at hrest
    exact absurd (hrest ▸ hv') (hother _)

/-- What is said of a word if `matched` labels have been followed before it. -/
def Match.behind (matched : Nat) : Match → Match
  | .noMatch => if 0 < matched then .automatonHasPrefix matched else .noMatch
  | .automatonHasPrefix k => .automatonHasPrefix (matched + k)
  | m => m

theorem Match.behind_zero (m : Match) : m.behind 0 = m := by
  cases m with
  | automatonHasPrefix k => exact congrArg automatonHasPrefix k.zero_add
  | _ => rfl

theorem Match.behind_one (matched : Nat) (m : Match) : (m.behind 1).behind matched = m.behind (matched + 1) := by
  cases m with
  | automatonHasPrefix k => exact congrArg automatonHasPrefix (by omega)
  | _ => rfl

namespace Automaton

variable {A : Automaton} {s : State} {c : UInt8} {w : Word}

theorem follow_none (hfound : A.findArc s c = .ok none) (matched : Nat) :
    A.follow s matched (c :: w) = .ok (Match.behind matched .noMatch) := by
  rw [follow, hfound]
  rfl

theorem follow_some {a : Arc} {t : Transition} (hfound : A.findArc s c = .ok (some a)) (ht : A.transition a = .ok t)
    (matched : Nat) : A.follow s matched (c :: w) = if w = [] ∧ t.isFinal = true then .ok .exact
      else t.target.elim (.ok (.automatonHasPrefix (matched + 1))) fun u => A.follow u (matched + 1) w := by
  obtain ⟨-, hfinal, htarget⟩ := transition_eq_ok.1 ht
  rw [follow, hfound]
  by_cases hw : w = []
  · cases hf : t.isFinal <;> cases hu : t.target <;> simp [hw, hfinal, htarget, hf, hu]
  · cases hu : t.target <;> simp [hw, htarget, hu]

theorem Answers.exact_iff {L : List Word} {m : Match} (h : A.Answers L w m) : m = .exact ↔ w ∈ L := by
  cases h with
  | exact hw => exact iff_of_true rfl hw
  | sequenceIsPrefix hw => exact iff_of_false nofun hw
  | automatonHasPrefix _ hno => exact iff_of_false nofun fun hw => hno w hw List.prefix_rfl
  | noMatch _ hno => exact iff_of_false nofun fun hw => hno w hw List.prefix_rfl

/-- The answer for a longer word, by that for what is behind its first label. -/
theorem Answers.cons {L below : List Word} {isFinal : Bool}
    (hL : ∀ v, c :: v ∈ L ↔ v = [] ∧ isFinal = true ∨ v ∈ below) (hnil : [] ∉ below) (hne : ∃ v, v ∈ below)
    (hend : ¬(w = [] ∧ isFinal = true)) {m : Match} (h : A.Answers below w m) : A.Answers L (c :: w) (m.behind 1) := by
  have hmem : c :: w ∈ L ↔ w ∈ below := by rw [hL, or_iff_right hend]
  have hnone (hw : w ≠ []) (hno : ∀ v ∈ below, ¬w <+: v) : ∀ v ∈ L, ¬c :: w <+: v := by
    rintro v hv ⟨rest, rfl⟩
    rcases (hL _).1 hv with ⟨happend, -⟩ | hbelow
    · exact hw (List.append_eq_nil_iff.1 happend).1
    · exact hno _ hbelow (List.prefix_append w rest)
  have hshares {k : Nat} (hk : SharesAtMost below w k) : SharesAtMost L (c :: w) (k + 1) :=
    sharesAtMost_cons (· ∈ below) (fun v hv => (hL v).2 (.inr hv)) (fun v hv => ((hL v).1 hv).imp_left And.left) hk
  cases h with
  | exact hw => exact .exact (hmem.2 hw)
  | @sequenceIsPrefix t ends hw hlonger hends hmore =>
    refine .sequenceIsPrefix (mt hmem.1 hw) (.inr ?_) hends fun v => ?_
    · rcases hlonger with rfl | ⟨v, hv, hprefix, hne⟩
      · obtain ⟨v, hv⟩ := hne
        refine ⟨c :: v, (hL v).2 (.inr hv), by simp, ?_⟩
        rintro ⟨⟩
        exact hnil hv
      · exact ⟨c :: v, (hL v).2 (.inr hv), by simpa using hprefix, by simpa using hne⟩
    · rw [hmore, List.cons_append, hL]
      exact and_congr_right fun hv => by simp [hv]
  | @automatonHasPrefix k hw hno hk _ =>
    rw [Match.behind, Nat.add_comm]
    exact .automatonHasPrefix (List.cons_ne_nil c w) (hnone hw hno) (hshares hk) (Nat.succ_pos k)
  | noMatch hw hno hk =>
    exact .automatonHasPrefix (List.cons_ne_nil c w) (hnone hw hno) (hshares hk) Nat.one_pos

/-- Nothing is behind a label that only ends a word. -/
theorem Answers.ended {L : List Word} (hL : ∀ v, c :: v ∈ L ↔ v = []) (hw : w ≠ []) :
    A.Answers L (c :: w) (.automatonHasPrefix 1) := by
  refine .automatonHasPrefix (List.cons_ne_nil c w) ?_ ?_ Nat.one_pos
  · rintro v hv ⟨rest, rfl⟩
    exact hw (List.append_eq_nil_iff.1 ((hL _).1 hv)).1
  · refine sharesAtMost_cons (· = []) (fun v hv => (hL v).2 hv) (fun v hv => .inl ((hL v).1 hv)) ?_
    refine ⟨⟨[], rfl, List.nil_prefix⟩, ?_⟩
    rintro n ⟨v, rfl, hprefix⟩
    have hzero : n = 0 := by simpa [hw] using List.prefix_nil.1 hprefix
    exact Nat.le_of_eq hzero

/-- Following a word tells what it is to the words of the state. -/
theorem Readable.follow_answers (hread : A.Readable) {depth : Nat} {W : List Word} (h : A.graph.Spells depth W)
    (htrim : A.graph.Trim) (hdepth : depth ≤ depthFor none) (hs : A.graph.Reachable s) (matched : Nat) (w : Word) :
    ∃ m, A.follow s matched w = .ok (m.behind matched) ∧ A.Answers (A.graph.spelled depth s) w m := by
  have hshallow := h.shallow s hs
  induction w generalizing s matched with
  | nil =>
    refine ⟨_, rfl, .sequenceIsPrefix (Graph.nil_notMem_spelled depth s) (.inl rfl)
      (hread.wordsFrom_eq hs hshallow hdepth) fun v => ?_⟩
    have hne (hv : v ∈ A.graph.spelled depth s) : v ≠ [] := fun hnil => Graph.nil_notMem_spelled depth s (hnil ▸ hv)
    exact ⟨fun hv => ⟨hne hv, hv⟩, And.right⟩
  | cons c w ih =>
    rcases hread.findArc_cases hs c with ⟨hnone, hother⟩ | ⟨a, hfound, t, ht, rfl, hok⟩
    · have hno (v : Word) : c :: v ∉ A.graph.spelled depth s := by
        rw [Graph.cons_mem_spelled hshallow]
        rintro ⟨t, ht, hlabel, -⟩
        exact hother t ht hlabel
      refine ⟨.noMatch, follow_none hnone matched, .noMatch (List.cons_ne_nil c w) ?_ ?_⟩
      · rintro v hv ⟨rest, rfl⟩
        exact hno _ hv
      · exact sharesAtMost_zero (htrim.exists_mem_spelled hs hshallow) hno
    · have hmem := h.cons_mem_iff hs ht
      rw [follow_some hfound hok]
      by_cases hend : w = [] ∧ t.isFinal = true
      · exact ⟨.exact, if_pos hend, .exact ((hmem w).2 (.inl hend))⟩
      · rw [if_neg hend]
        -- Without a target, trimness tells that the arc ends a word, so that `w` runs on behind it.
        cases hu : t.target with
        | none =>
          have hfinal := (htrim s hs).2 t ht hu
          exact ⟨_, rfl, .ended (by simpa [hu, hfinal] using hmem) fun hw => hend ⟨hw, hfinal⟩⟩
        | some u =>
          have hreach : A.graph.Reachable u := .step hs (Graph.mem_targets.2 ⟨t, ht, hu⟩)
          have hshallow' := h.shallow u hreach
          obtain ⟨m, hfollow, hanswers⟩ := ih hreach (matched + 1) hshallow'
          rw [hu, Option.elim_some] at hmem
          refine ⟨m.behind 1, by rw [m.behind_one]; exact hfollow, hanswers.cons hmem ?_ ?_ hend⟩
          · exact Graph.nil_notMem_spelled depth u
          · exact htrim.exists_mem_spelled hreach hshallow'

end Automaton

namespace Builder

theorem Finished.trim {W : List Word} {p : Pool} {root : UInt32} (h : Finished W p root) :
    (p.reader root).graph.Trim := by
  intro s hs
  obtain ⟨rs, hrow⟩ := h.reachable_iff.1 hs
  have hproper := Frozen.proper_of_row h.opened.pool.states hrow
  obtain ⟨a⟩ := s
  rw [Pool.graph_row h.opened.pool hrow]
  refine ⟨by simpa using hproper.ne_nil, ?_⟩
  rintro t ht hnone
  obtain ⟨r, hr, rfl⟩ := List.mem_map.1 ht
  rcases hproper.leads r hr with ⟨-, hfinal⟩ | ⟨rs', hrow'⟩
  · exact hfinal
  · have htarget := Record.target_eq_some.2 ⟨Frozen.ne_zero_of_row hrow', rfl⟩
    rw [hnone] at htarget
    cases htarget

/-- Looking a word up in a built automaton, from any state, tells exactly what the word is to those spelled from there. -/
theorem build_matches {W : List Word} {b : RecordBuffer} (hb : build W = .ok b) :
    (∀ s, b.automaton.graph.Reachable s → ∃ L, b.automaton.wordsFrom s none = ⟨L, none⟩ ∧
      ∀ w, ∃ m, b.automaton.matchFrom w s = .ok m ∧ b.automaton.Answers L w m) ∧
    b.automaton.words none = ⟨W, none⟩ ∧ ∀ w, b.automaton.contains w = .ok (decide (w ∈ W)) := by
  obtain ⟨p, root, rfl, h⟩ := finished_of_build hb
  obtain ⟨depth, hdepth, hspells⟩ := h.spells
  have hanswers {s : State} (hs : (p.reader root).graph.Reachable s) (w : Word) :
      ∃ m, (p.reader root).matchFrom w s = .ok m ∧ (p.reader root).Answers ((p.reader root).graph.spelled depth s) w m := by
    obtain ⟨m, hm, hanswers⟩ := h.readable.follow_answers hspells h.trim hdepth hs 0 w
    exact ⟨m, by rw [Automaton.matchFrom, hm, m.behind_zero], hanswers⟩
  refine ⟨fun s hs => ⟨_, h.readable.wordsFrom_eq hs (hspells.shallow s hs) hdepth, hanswers hs⟩, h.words_reader, ?_⟩
  intro w
  show (p.reader root).contains w = .ok (decide (w ∈ W))
  rw [Automaton.contains, Automaton.matchWord, h.readable.root]
  cases hr : (p.reader root).graph.root with
  | none =>
    obtain rfl : [] = W := by simpa [hr] using hspells.words_eq
    rfl
  | some r =>
    obtain ⟨m, hm, hanswers⟩ := hanswers (.root hr) w
    rw [← hspells.words_eq, hr, Option.elim_some, ← decide_eq_decide.2 hanswers.exact_iff]
    show (do return (← (p.reader root).matchFrom w r) == Match.exact) = _
    rw [hm]
    rfl

/-- A word that is accepted and goes on, one that runs a label behind an accepted one, and one of no accepted beginning. -/
theorem build_matches_shared : ∃ b r, build [[97], [97, 99], [98, 99]] = .ok b ∧ b.automaton.root = .ok (some r) ∧
    (∀ s, b.automaton.graph.Reachable s → ∃ L, b.automaton.wordsFrom s none = ⟨L, none⟩ ∧
      ∀ w, ∃ m, b.automaton.matchFrom w s = .ok m ∧ b.automaton.Answers L w m) ∧
    b.automaton.matchFrom [97] r = .ok .exact ∧ b.automaton.matchFrom [97, 99, 99] r = .ok (.automatonHasPrefix 2) ∧
    b.automaton.matchFrom [99] r = .ok .noMatch := by
  have hrun : (do
      let b ← (build [[97], [97, 99], [98, 99]]).toOption
      let r ← (← b.automaton.root.toOption)
      return (b.automaton.matchFrom [97] r, b.automaton.matchFrom [97, 99, 99] r, b.automaton.matchFrom [99] r)) =
        some (.ok .exact, .ok (.automatonHasPrefix 2), .ok .noMatch) := by cbv
  simp only [Option.bind_eq_bind, Option.bind_eq_some_iff, toOption_eq_some, Option.pure_def, Option.some.injEq,
    Prod.mk.injEq] at hrun
  obtain ⟨b, hb, root, hroot, r, rfl, hexact, hprefix, hno⟩ := hrun
  exact ⟨b, r, hb, hroot, (build_matches hb).1, hexact, hprefix, hno⟩

end Builder

end WordAutomata
