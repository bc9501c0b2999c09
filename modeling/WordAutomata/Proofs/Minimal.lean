import WordAutomata.Proofs.Builder
import WordAutomata.Proofs.Records
import WordAutomata.Proofs.Tally
import WordAutomata.Proofs.Words

namespace WordAutomata

/-- The automaton that the states of a pool make up, read from a root. -/
def Pool.reader (p : Pool) (root : UInt32) : Automaton := (RecordBuffer.mk (p.toBytes root)).automaton

namespace Pool

variable {p : Pool} {root : UInt32}

theorem reader_root : (p.reader root).root = .ok (if root = 0 then none else some ⟨root⟩) := by
  have hbytes : (p.toBytes root).Holds (0 : UInt32).toNat (Record.toBytes ⟨0, false, root⟩ true) :=
    ⟨p.states.reverse.flatMap Record.rowBytes, rfl⟩
  exact (Automaton.transition_eq_ok.1 (RecordBuffer.transition_eq (b := ⟨p.toBytes root⟩) hbytes)).2.2

theorem graph_root : (p.reader root).graph.root = if root = 0 then none else some ⟨root⟩ :=
  Automaton.graph_root reader_root

variable (hp : p.Sound) {a : UInt32} {rs : List Record} (ha : Frozen.row p.states a.toNat = some rs)

include hp ha

theorem carries_row : (p.reader root).Carries ⟨a⟩ (rs.map Record.transition) := by
  have hne := (Frozen.proper_of_row hp.states ha).ne_nil
  have hbounds := (Frozen.bounds_of_row ha).2
  have hsmall := hp.small
  exact RecordBuffer.carries_of_holds hne (holds_row ha root) (by omega)

theorem reader_row : (p.reader root).row ⟨a⟩ = .ok (rs.map Record.transition) :=
  Automaton.row_eq_ok.2 ⟨⟨a⟩, rfl, carries_row hp ha⟩

theorem graph_row : (p.reader root).graph.row ⟨a⟩ = rs.map Record.transition :=
  Automaton.graph_row (reader_row hp ha)

theorem mem_targets {t : State} :
    t ∈ (p.reader root).graph.targets ⟨a⟩ ↔ ∃ r ∈ rs, r.target ≠ 0 ∧ t = ⟨r.target⟩ := by
  rw [Graph.targets, graph_row hp ha, List.filterMap_map, List.mem_filterMap]
  constructor
  · rintro ⟨r, hr, ht⟩
    obtain ⟨hzero, hsame⟩ := Record.target_eq_some.1 ht
    exact ⟨r, hr, hzero, hsame.symm⟩
  · rintro ⟨r, hr, hzero, hsame⟩
    exact ⟨r, hr, Record.target_eq_some.2 ⟨hzero, hsame.symm⟩⟩

end Pool

namespace Builder.Finished

variable {W : List Word} {p : Pool} {root : UInt32} (h : Finished W p root)

include h

theorem root_cases : root = 0 ∧ W = [] ∨ ∃ rs, Frozen.row p.states root.toNat = some rs := by
  rcases h.opened.stored with hzero | hrow
  · exact .inl ⟨hzero, by rw [← h.words_eq, hzero, Frozen.words_zero]⟩
  · exact .inr hrow

/-- A path leads to every frozen state, and to nothing else. -/
theorem reachable_iff {s : State} :
    (p.reader root).graph.Reachable s ↔ ∃ rs, Frozen.row p.states s.offset.toNat = some rs := by
  have hstates := h.opened.pool.states
  constructor
  · intro hs
    induction hs with
    | root hr =>
      rw [Pool.graph_root] at hr
      rcases h.root_cases with ⟨hzero, -⟩ | hrow
      · rw [if_pos hzero] at hr
        cases hr
      · split at hr
        · cases hr
        · cases hr
          exact hrow
    | step _ ht ih =>
      obtain ⟨rs, hrow⟩ := ih
      obtain ⟨r, hr, hne, rfl⟩ := (Pool.mem_targets h.opened.pool hrow).1 ht
      exact ((Frozen.proper_of_row hstates hrow).leads r hr).stored.resolve_left hne
  · intro ⟨rs, hrow⟩
    obtain ⟨a⟩ := s
    obtain ⟨b, hb, hpath⟩ := h.opened.live a rs hrow
    obtain rfl : b = root := by simpa [openTargets] using hb
    induction hpath generalizing rs with
    | refl =>
      refine .root ?_
      rw [Pool.graph_root, if_neg (Frozen.ne_zero_of_row hrow)]
    | tail _ harrow ih =>
      obtain ⟨rs', hrow', r, hr, rfl⟩ := harrow
      refine .step (ih rs' hrow') ?_
      exact (Pool.mem_targets h.opened.pool hrow').2 ⟨r, hr, Frozen.ne_zero_of_row hrow, rfl⟩

theorem readable : (p.reader root).Readable := by
  refine ⟨⟨_, Pool.reader_root⟩, ?_⟩
  intro s hs
  obtain ⟨rs, hrow⟩ := h.reachable_iff.1 hs
  exact ⟨_, Pool.reader_row h.opened.pool hrow⟩

/-- Paths lead to ever smaller addresses. -/
theorem acyclic : (p.reader root).graph.Acyclic := by
  intro s hs hcycle
  have hlt {t : State} (ht : Relation.TransGen (p.reader root).graph.Leads s t) :
      (p.reader root).graph.Reachable t ∧ t.offset.toNat < s.offset.toNat := by
    induction ht with
    | single hst =>
      obtain ⟨rs, hrow⟩ := h.reachable_iff.1 hs
      obtain ⟨r, hr, -, rfl⟩ := (Pool.mem_targets h.opened.pool hrow).1 hst
      exact ⟨.step hs hst, Frozen.target_lt h.opened.pool.states hrow hr⟩
    | tail _ htu ih =>
      obtain ⟨rs, hrow⟩ := h.reachable_iff.1 ih.1
      obtain ⟨r, hr, -, rfl⟩ := (Pool.mem_targets h.opened.pool hrow).1 htu
      exact ⟨.step ih.1 htu, Nat.lt_trans (Frozen.target_lt h.opened.pool.states hrow hr) ih.2⟩
  exact Nat.lt_irrefl _ (hlt hcycle).2

theorem accepts_iff {a : UInt32} {rs : List Record} (ha : Frozen.row p.states a.toNat = some rs) {w : Word} :
    (p.reader root).graph.Accepts ⟨a⟩ w ↔ w ∈ Frozen.words p.states a := by
  have hstates := h.opened.pool.states
  induction w generalizing a rs with
  | nil =>
    have hnil := Frozen.nil_notMem_words p.states a
    simp [Graph.Accepts, hnil]
  | cons c w ih =>
    rw [Frozen.words_eq hstates ha, List.mem_flatMap]
    cases w with
    | nil =>
      rw [Graph.Accepts, Pool.graph_row h.opened.pool ha]
      constructor
      · intro ⟨t, ht, hlabel, hfinal⟩
        obtain ⟨r, hr, rfl⟩ := List.mem_map.1 ht
        exact ⟨r, hr, Record.cons_mem_words.2 ⟨hlabel.symm, .inl ⟨rfl, hfinal⟩⟩⟩
      · intro ⟨r, hr, hw⟩
        obtain ⟨rfl, hfinal | hnil⟩ := Record.cons_mem_words.1 hw
        · exact ⟨r.transition, List.mem_map_of_mem hr, rfl, hfinal.2⟩
        · exact absurd hnil (Frozen.nil_notMem_words p.states r.target)
    | cons d w =>
      rw [Graph.Accepts, Pool.graph_row h.opened.pool ha]
      have hleads := (Frozen.proper_of_row hstates ha).leads
      constructor
      · intro ⟨t, ht, hlabel, s, hs, hw⟩
        obtain ⟨r, hr, rfl⟩ := List.mem_map.1 ht
        obtain ⟨hzero, rfl⟩ := Record.target_eq_some.1 hs
        obtain ⟨rs', hrow⟩ := (hleads r hr).stored.resolve_left hzero
        exact ⟨r, hr, Record.cons_mem_words.2 ⟨hlabel.symm, .inr ((ih hrow).1 hw)⟩⟩
      · intro ⟨r, hr, hw⟩
        obtain ⟨rfl, hnil | hw⟩ := Record.cons_mem_words.1 hw
        · cases hnil.1
        · have hzero : r.target ≠ 0 := by
            intro hzero
            simp [hzero] at hw
          obtain ⟨rs', hrow⟩ := (hleads r hr).stored.resolve_left hzero
          have htarget := Record.target_eq_some.2 ⟨hzero, rfl⟩
          exact ⟨r.transition, List.mem_map_of_mem hr, rfl, ⟨r.target⟩, htarget, (ih hrow).2 hw⟩

/-- The root of an automaton of words accepts these words. -/
theorem root_accepts (hne : W ≠ []) :
    ∃ r, (p.reader root).graph.root = some r ∧ ∀ w, (p.reader root).graph.Accepts r w ↔ w ∈ W := by
  rcases h.root_cases with ⟨-, hnil⟩ | ⟨rs, hrow⟩
  · exact absurd hnil hne
  · refine ⟨⟨root⟩, ?_, ?_⟩
    · rw [Pool.graph_root, if_neg (Frozen.ne_zero_of_row hrow)]
    · intro w
      rw [h.accepts_iff hrow, h.words_eq]

theorem covers : Frozen.Covers p.states W := by
  have hstates := h.opened.pool.states
  intro u
  -- The state of `u` has an arc with the next label, and the target of this arc is the state of the longer beginning.
  induction u using List.reverseRecOn with
  | nil =>
    rintro ⟨v, hv⟩
    rcases h.root_cases with ⟨-, hW⟩ | ⟨rs, hrow⟩
    · simp [residual, hW] at hv
    · refine ⟨root, rs, hrow, ?_⟩
      ext w
      have hne : w ∈ Frozen.words p.states root → w ≠ [] := by
        intro hw hnil
        exact Frozen.nil_notMem_words p.states root (hnil ▸ hw)
      simp only [Frozen.language, residual, Set.mem_ofPred_eq, List.nil_append, ← h.words_eq]
      exact ⟨fun hw => ⟨hne hw, hw⟩, And.right⟩
  | append_singleton u c ih =>
    rintro ⟨v, hv, hmem⟩
    rw [List.append_assoc, List.singleton_append] at hmem
    obtain ⟨a, rs, hrow, hlanguage⟩ := ih ⟨c :: v, by simp, hmem⟩
    have hgo (w : Word) (hw : w ≠ []) : c :: w ∈ Frozen.words p.states a ↔ u ++ [c] ++ w ∈ W := by
      have := Set.ext_iff.1 hlanguage (c :: w)
      simpa [Frozen.language, residual] using this
    obtain ⟨r, hr, rfl⟩ := Frozen.exists_label hstates hrow ((hgo v hv).2 (by simpa using hmem))
    have hproper := Frozen.proper_of_row hstates hrow
    have htarget (w : Word) (hw : w ≠ []) : w ∈ Frozen.words p.states r.target ↔ u ++ [r.label] ++ w ∈ W := by
      rw [← hgo w hw, Frozen.words_eq hstates hrow, Frozen.cons_mem_flatMap hproper.ascending hr]
      simp [hw]
    have hv' : v ∈ Frozen.words p.states r.target := (htarget v hv).2 (by simpa using hmem)
    have hzero : r.target ≠ 0 := by
      intro hzero
      simp [hzero] at hv'
    obtain ⟨rs', hrow'⟩ := (hproper.leads r hr).stored.resolve_left hzero
    refine ⟨r.target, rs', hrow', ?_⟩
    ext w
    by_cases hw : w = []
    · simp [Frozen.language, residual, hw, Frozen.nil_notMem_words]
    · simpa [Frozen.language, residual, hw] using htarget w hw

theorem arcs_eq : Frozen.arcs p.states = (neededArcs W).ncard :=
  Frozen.arcs_eq h.opened.pool.states h.opened.within h.covers

/-- Paths lead to ever smaller addresses, which bounds their length. -/
theorem shallow {depth : Nat} {s : State} (hs : (p.reader root).graph.Reachable s) (hdepth : s.offset.toNat < depth) :
    (p.reader root).graph.Shallow depth s := by
  induction depth generalizing s with
  | zero => omega
  | succ depth ih =>
    intro t ht
    obtain ⟨rs, hrow⟩ := h.reachable_iff.1 hs
    obtain ⟨r, hr, -, rfl⟩ := (Pool.mem_targets h.opened.pool hrow).1 ht
    have hlt := Frozen.target_lt h.opened.pool.states hrow hr
    exact ih (.step hs ht) (by simp only; omega)

/-- A depth beyond the address of a state is enough to spell its words. -/
theorem spelled_eq {depth : Nat} {a : UInt32} {rs : List Record} (ha : Frozen.row p.states a.toNat = some rs)
    (hdepth : a.toNat < depth) : (p.reader root).graph.spelled depth ⟨a⟩ = Frozen.words p.states a := by
  have hstates := h.opened.pool.states
  induction depth generalizing a rs with
  | zero => omega
  | succ depth ih =>
    have hproper := Frozen.proper_of_row hstates ha
    rw [Graph.spelled, Pool.graph_row h.opened.pool ha, Frozen.words_eq hstates ha, List.flatMap_map]
    refine List.flatMap_congr fun r hr => ?_
    by_cases hzero : r.target = 0
    · simp [Transition.words, Record.transition, Record.words, hzero]
    · obtain ⟨rs', hrow⟩ := (hproper.leads r hr).stored.resolve_left hzero
      have hlt := Frozen.target_lt hstates ha hr
      simp [Transition.words, Record.transition, Record.words, hzero, ih hrow (by omega)]

theorem words_reader : (p.reader root).words none = ⟨W, none⟩ := by
  rw [Automaton.words, Pool.reader_root]
  rcases h.root_cases with ⟨hzero, hW⟩ | ⟨rs, hrow⟩
  · rw [if_pos hzero, hW]
    rfl
  · have hreach : (p.reader root).graph.Reachable ⟨root⟩ := h.reachable_iff.2 ⟨rs, hrow⟩
    have hdepth : root.toNat + 1 ≤ Automaton.depthFor none := root.toNat_lt
    have hwords := h.readable.legible.wordsFrom_eq hreach (h.shallow hreach (Nat.lt_succ_self _)) hdepth
    rw [h.spelled_eq hrow (Nat.lt_succ_self _), h.words_eq] at hwords
    rw [if_neg (Frozen.ne_zero_of_row hrow)]
    exact hwords

theorem eq_of_accepts {s t : State} (hs : (p.reader root).graph.Reachable s) (ht : (p.reader root).graph.Reachable t)
    (hsame : ∀ w, (p.reader root).graph.Accepts s w ↔ (p.reader root).graph.Accepts t w) : s = t := by
  obtain ⟨a⟩ := s
  obtain ⟨b⟩ := t
  obtain ⟨rs, ha⟩ := h.reachable_iff.1 hs
  obtain ⟨rs', hb⟩ := h.reachable_iff.1 ht
  have hwords (w : Word) : w ∈ Frozen.words p.states a ↔ w ∈ Frozen.words p.states b := by
    rw [← h.accepts_iff ha, ← h.accepts_iff hb, hsame w]
  exact congrArg State.mk (Frozen.eq_of_words h.opened.pool.states ha hb hwords)

/-- There is a state for whatever may follow some beginning, and no other. -/
theorem encard_states {states : List State} (hstates : (p.reader root).Surveyed states) :
    {R : Set Word | R.Nonempty ∧ ∃ u, R = residual W u}.encard = states.length := by
  have hsound := h.opened.pool.states
  have himage : {R : Set Word | R.Nonempty ∧ ∃ u, R = residual W u} =
      (fun s : State => Frozen.language p.states s.offset) '' {s | s ∈ states} := by
    ext R
    constructor
    · intro ⟨hR, u, hu⟩
      obtain ⟨a, rs, hrow, hlanguage⟩ := h.covers u (hu ▸ hR)
      exact ⟨⟨a⟩, (hstates.mem_iff ⟨a⟩).2 (h.reachable_iff.2 ⟨rs, hrow⟩), hlanguage.trans hu.symm⟩
    · intro ⟨s, hs, hlanguage⟩
      obtain ⟨rs, hrow⟩ := h.reachable_iff.1 ((hstates.mem_iff s).1 hs)
      obtain ⟨u, hu⟩ := h.opened.within s.offset rs hrow
      obtain ⟨w, hw⟩ := List.exists_mem_of_ne_nil _ (Frozen.words_ne_nil hsound hrow)
      exact ⟨⟨w, by rw [← hlanguage]; exact hw⟩, u, hlanguage.symm.trans hu⟩
  have hinj : Set.InjOn (fun s : State => Frozen.language p.states s.offset) {s | s ∈ states} := by
    intro s hs t ht heq
    obtain ⟨rs, hrow⟩ := h.reachable_iff.1 ((hstates.mem_iff s).1 hs)
    obtain ⟨rs', hrow'⟩ := h.reachable_iff.1 ((hstates.mem_iff t).1 ht)
    obtain ⟨a⟩ := s
    obtain ⟨b⟩ := t
    exact congrArg State.mk (Frozen.language_injective hsound hrow hrow' heq)
  rw [himage, hinj.encard_image, ← List.coe_toFinset, Set.encard_coe_eq_coe_finsetCard,
    List.toFinset_card_of_nodup hstates.nodup]

theorem sum_rows {states : List State} (hstates : (p.reader root).Surveyed states) :
    (states.map fun s => ((p.reader root).graph.row s).length).sum = Frozen.arcs p.states := by
  have hsound := h.opened.pool.states
  have hperm : states.Perm ((Frozen.addresses p.states).map State.mk) := by
    refine (List.perm_ext_iff_of_nodup hstates.nodup ?_).2 ?_
    · refine List.pairwise_map.2 ((Frozen.nodup_addresses hsound).imp ?_)
      intro a b hne heq
      exact hne (State.mk.inj heq)
    · intro s
      rw [hstates.mem_iff, h.reachable_iff, ← Frozen.mem_addresses hsound, List.mem_map]
      exact ⟨fun hs => ⟨s.offset, hs, rfl⟩, fun ⟨a, ha, hs⟩ => hs ▸ ha⟩
  rw [(hperm.map _).sum_eq, List.map_map]
  apply Frozen.sum_addresses hsound
  intro a rs hrow
  simp [Pool.graph_row h.opened.pool hrow]

end Builder.Finished

namespace Builder

/-- Words are accepted by the builder exactly if they are not empty, come in ascending order and need no more arcs than
there is room for; the automaton then spells them in this order and ends. -/
theorem build_words (W : List Word) :
    ((∃ b, build W = .ok b) ↔
      (∀ w ∈ W, w ≠ []) ∧ Ascending W ∧ Record.size * (1 + (neededArcs W).ncard) < 2 ^ 32) ∧
    ∀ b, build W = .ok b →
      b.automaton.words none = ⟨W, none⟩ ∧ b.data.size = Record.size * (1 + (neededArcs W).ncard) := by
  have hsize {p : Pool} {root : UInt32} (hp : Finished W p root) :
      (p.toBytes root).size = Record.size * (1 + (neededArcs W).ncard) := by
    rw [Pool.size_toBytes, Frozen.behind, hp.arcs_eq]
  refine ⟨⟨?_, ?_⟩, ?_⟩
  · rintro ⟨b, hb⟩
    obtain ⟨hnonempty, hasc⟩ := ascending_of_build hb
    obtain ⟨p, root, -, hp⟩ := finished_of_build hb
    refine ⟨hnonempty, hasc, ?_⟩
    rw [← hsize hp, Pool.size_toBytes]
    exact hp.opened.pool.small
  · rintro ⟨hnonempty, hasc, hfits⟩
    rcases build_cases hasc hnonempty with ⟨p, root, hok, -⟩ | ⟨-, hlarge⟩
    · exact ⟨_, hok⟩
    · omega
  · intro b hb
    obtain ⟨p, root, rfl, hp⟩ := finished_of_build hb
    exact ⟨hp.words_reader, hsize hp⟩

end Builder

/-- No state and no record of the automaton of some words is too many. -/
structure RecordBuffer.Minimal (b : RecordBuffer) (W : List Word) : Prop where
  readable : b.automaton.Readable
  /-- Different states accept different words. -/
  distinct : ∀ s t, b.automaton.graph.Reachable s → b.automaton.graph.Reachable t →
    (∀ w, b.automaton.graph.Accepts s w ↔ b.automaton.graph.Accepts t w) → s = t
  /-- There is one state for whatever may follow some beginning, and the buffer holds their arcs behind the first
  record. -/
  states : ∃ states, b.automaton.survey = .ok states ∧ b.automaton.Surveyed states ∧
    {R : Set Word | R.Nonempty ∧ ∃ u, R = residual W u}.encard = states.length ∧
    b.data.size = Record.size * (1 + (states.map fun s => (b.automaton.graph.row s).length).sum)
  /-- Every record behind the first one is an arc of some state. -/
  used : ∀ i, 0 < i → Record.size * i < b.data.size → ∃ s, b.automaton.graph.Reachable s ∧
    ∃ j < (b.automaton.graph.row s).length, Record.size * i = s.offset.toNat + Record.size * j

theorem Builder.Finished.minimal {W : List Word} {p : Pool} {root : UInt32} (h : Finished W p root) :
    RecordBuffer.Minimal ⟨p.toBytes root⟩ W := by
  have hsize : (p.toBytes root).size = Frozen.behind p.states := Pool.size_toBytes p root
  refine ⟨h.readable, fun s t hs ht => h.eq_of_accepts hs ht, ?_, ?_⟩
  · obtain ⟨states, hok, hstates⟩ := h.readable.survey
    refine ⟨states, hok, hstates, h.encard_states hstates, ?_⟩
    show (p.toBytes root).size = Record.size * (1 + (states.map fun s => ((p.reader root).graph.row s).length).sum)
    rw [h.sum_rows hstates, hsize, Frozen.behind]
  · intro i hlow hhigh
    obtain ⟨a, rs, j, hrow, hj, heq⟩ := Frozen.exists_row hlow (hsize ▸ hhigh)
    have hlt := Nat.lt_trans (Frozen.lt_behind h.opened.pool.states hrow) h.opened.pool.small
    obtain ⟨a, rfl⟩ : ∃ b : UInt32, b.toNat = a := ⟨UInt32.ofNat a, UInt32.toNat_ofNat_of_lt' hlt⟩
    refine ⟨⟨a⟩, h.reachable_iff.2 ⟨rs, hrow⟩, j, ?_, heq⟩
    show j < ((p.reader root).graph.row ⟨a⟩).length
    rw [Pool.graph_row h.opened.pool hrow, List.length_map]
    exact hj

namespace Builder

/-- The automaton of words in ascending order is minimal, whenever there is room for it. -/
theorem build_minimal {W : List Word} (hnonempty : ∀ w ∈ W, w ≠ []) (hasc : Ascending W)
    (hfits : Record.size * (1 + (neededArcs W).ncard) < 2 ^ 32) : ∃ b, build W = .ok b ∧ b.Minimal W := by
  rcases build_cases hasc hnonempty with ⟨p, root, hok, h⟩ | ⟨-, hlarge⟩
  · exact ⟨_, hok, h.minimal⟩
  · omega

theorem build_minimal_shared : ∃ b, build [[97, 99], [98, 99]] = .ok b ∧ b.Minimal [[97, 99], [98, 99]] := by
  apply build_minimal
  · decide
  · decide
  · have hle := ncard_neededArcs_le [[97, 99], [98, 99]]
    simp only [Record.size, List.map_cons, List.map_nil, List.sum_cons, List.sum_nil, List.length_cons,
      List.length_nil] at hle ⊢
    omega

end Builder

end WordAutomata
