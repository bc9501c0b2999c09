import WordAutomata.Proofs.Language

namespace WordAutomata

open Relation (ReflTransGen TransGen)

namespace Transition

variable {below : State → List Word} {t : Transition}

theorem nil_notMem_words : [] ∉ t.words below := by cases hf : t.isFinal <;> simp [words, hf]

theorem cons_mem_words {c : UInt8} {w : Word} :
    c :: w ∈ t.words below ↔ t.label = c ∧ (w = [] ∧ t.isFinal = true ∨ ∃ s, t.target = some s ∧ w ∈ below s) := by
  have hbelow : w ∈ t.target.elim [] below ↔ ∃ s, t.target = some s ∧ w ∈ below s := by cases t.target <;> simp
  have hmap : c :: w ∈ (t.target.elim [] below).map (t.label :: ·) ↔ t.label = c ∧ w ∈ t.target.elim [] below := by
    simp [and_comm]
  rw [words, List.mem_append, hmap, ← hbelow]
  cases t.isFinal with
  | false => simp
  | true => simp [and_or_left, eq_comm]

/-- The word that ends with an arc comes before those that go on. -/
theorem ascending_words (hbelow : Ascending (t.target.elim [] below)) (hnil : [] ∉ t.target.elim [] below) :
    Ascending (t.words below) := by
  have hmap : Ascending ((t.target.elim [] below).map (t.label :: ·)) :=
    List.pairwise_map.2 (hbelow.imp fun h => List.Lex.cons h)
  rw [words]
  cases t.isFinal with
  | false => exact hmap
  | true =>
    refine List.pairwise_cons.2 ⟨?_, hmap⟩
    intro v hv
    obtain ⟨w, hw, rfl⟩ := List.mem_map.1 hv
    cases w with
    | nil => exact absurd hw hnil
    | cons c w => exact .cons .nil

/-- The words of an arc come before those of one with a larger label. -/
theorem precedes_of_label_lt {u : Transition} (h : t.label < u.label) {v w : Word} (hv : v ∈ t.words below)
    (hw : w ∈ u.words below) : Precedes v w := by
  cases v with
  | nil => exact absurd hv nil_notMem_words
  | cons c v =>
    cases w with
    | nil => exact absurd hw nil_notMem_words
    | cons d w =>
      obtain ⟨rfl, -⟩ := cons_mem_words.1 hv
      obtain ⟨rfl, -⟩ := cons_mem_words.1 hw
      exact .rel h

end Transition

namespace Graph

variable {G : Graph}

/-- The words spelled from a state are those it accepts. -/
theorem mem_spelled_iff {depth : Nat} {s : State} (h : G.Shallow depth s) (w : Word) :
    w ∈ G.spelled depth s ↔ G.Accepts s w := by
  induction depth generalizing s w with
  | zero => exact h.elim
  | succ depth ih =>
    cases w with
    | nil =>
      have hnil := nil_notMem_spelled (G := G) (depth + 1) s
      simp [Accepts, hnil]
    | cons c w =>
      rw [spelled, List.mem_flatMap]
      cases w with
      | nil =>
        simp only [Transition.cons_mem_words, nil_notMem_spelled, Accepts, and_false, exists_false, or_false, true_and]
      | cons d w =>
        simp only [Transition.cons_mem_words, reduceCtorEq, false_and, false_or, Accepts]
        refine exists_congr fun t => and_congr_right fun ht => and_congr_right fun _ => exists_congr fun u => ?_
        exact and_congr_right fun hu => ih (h u (mem_targets.2 ⟨t, ht, hu⟩)) (d :: w)

/-- Where the arcs of all states come in the order of their labels, the words come in ascending order. -/
theorem ascending_spelled {P : State → Prop}
    (hP : ∀ s, P s → ((G.row s).Pairwise fun t u => t.label < u.label) ∧ ∀ t ∈ G.targets s, P t) (depth : Nat) {s : State}
    (hs : P s) : Ascending (G.spelled depth s) := by
  induction depth generalizing s with
  | zero => exact .nil
  | succ depth ih =>
    obtain ⟨hasc, hclosed⟩ := hP s hs
    rw [spelled, Ascending, List.pairwise_flatMap]
    constructor
    · intro t ht
      refine Transition.ascending_words ?_ ?_
      · cases hu : t.target with
        | none => exact .nil
        | some u => exact ih (hclosed u (mem_targets.2 ⟨t, ht, hu⟩))
      · cases t.target with
        | none => exact List.not_mem_nil
        | some u => exact nil_notMem_spelled depth u
    · exact hasc.imp fun hlt v hv w hw => Transition.precedes_of_label_lt hlt hv hw

/-- A state of more depth starts a path of this length. -/
theorem exists_chain_of_not_shallow {depth : Nat} {s : State} (h : ¬G.Shallow depth s) :
    ∃ path, path.length = depth ∧ (s :: path).IsChain G.Leads := by
  induction depth generalizing s with
  | zero => exact ⟨[], rfl, .singleton s⟩
  | succ depth ih =>
    obtain ⟨t, ht, hdeep⟩ : ∃ t, t ∈ G.targets s ∧ ¬G.Shallow depth t := by
      simpa [Shallow] using h
    obtain ⟨path, hlength, hchain⟩ := ih hdeep
    exact ⟨t :: path, by rw [List.length_cons, hlength], .cons_cons ht hchain⟩

/-- A path that meets no state twice has no more arcs than there are states. -/
theorem shallow_of_acyclic {s : State} (h : ∀ t, ReflTransGen G.Leads s t → ¬TransGen G.Leads t t) {depth : Nat}
    (hdepth : 2 ^ 32 ≤ depth) : G.Shallow depth s := by
  by_contra hdeep
  obtain ⟨path, hlength, hchain⟩ := exists_chain_of_not_shallow hdeep
  have hpairwise : (s :: path).Pairwise (TransGen G.Leads) := (hchain.imp fun _ _ hab => .single hab).pairwise
  have hreach (t : State) (ht : t ∈ s :: path) : ReflTransGen G.Leads s t := by
    rcases List.mem_cons.1 ht with rfl | ht
    · exact .refl
    · exact ((List.pairwise_cons.1 hpairwise).1 t ht).to_reflTransGen
  have hnodup : ((s :: path).map fun t => t.offset.toNat).Nodup := by
    refine List.pairwise_map.2 (hpairwise.imp_of_mem fun {a b} ha _ hab heq => ?_)
    obtain rfl : a = b := congrArg State.mk (UInt32.toNat_inj.1 heq)
    exact h a (hreach a ha) hab
  have hle := length_le_of_nodup (n := 2 ^ 32) hnodup fun x hx => by
    obtain ⟨t, -, rfl⟩ := List.mem_map.1 hx
    exact t.offset.toNat_lt
  rw [List.length_map, List.length_cons, hlength] at hle
  omega

theorem Reachable.of_path {s t : State} (hs : G.Reachable s) (ht : ReflTransGen G.Leads s t) : G.Reachable t := by
  induction ht with
  | refl => exact hs
  | tail _ htu ih => exact .step ih htu

theorem Acyclic.shallow (h : G.Acyclic) {depth : Nat} (hdepth : 2 ^ 32 ≤ depth) {s : State} (hs : G.Reachable s) :
    G.Shallow depth s :=
  shallow_of_acyclic (fun t ht => h t (hs.of_path ht)) hdepth

end Graph

namespace Automaton

/-- The longest path without a cycle is not too long for an enumeration. -/
theorem exists_depth : ∃ depth, 2 ^ 32 ≤ depth ∧ ∀ wanted, depth ≤ depthFor wanted :=
  ⟨2 ^ 32, Nat.le_refl _, fun _ => Nat.le_mul_of_pos_right _ (Nat.succ_pos _)⟩

/-- From a state behind which there are no cycles, and the arcs of each state come in the order of their labels, just the
words that it accepts are spelled, in ascending order; as many of them are asked for, so many come. -/
theorem wordsFrom_ascending {A : Automaton} {s : State}
    (hread : ∀ t, ReflTransGen A.graph.Leads s t → ∃ ts, A.row t = .ok ts)
    (hacyclic : ∀ t, ReflTransGen A.graph.Leads s t → ¬TransGen A.graph.Leads t t)
    (hasc : ∀ t, ReflTransGen A.graph.Leads s t → (A.graph.row t).Pairwise fun t u => t.label < u.label) :
    ∃ W, A.wordsFrom s none = ⟨W, none⟩ ∧ Ascending W ∧ (∀ w, w ∈ W ↔ A.graph.Accepts s w) ∧
      ∀ n, A.wordsFrom s (some n) = ⟨W.take n, none⟩ := by
  have hlegible : A.Legible (ReflTransGen A.graph.Leads s) := fun t ht => ⟨hread t ht, fun u hu => ht.tail hu⟩
  obtain ⟨depth, hlarge, hdepth⟩ := exists_depth
  have hshallow := Graph.shallow_of_acyclic hacyclic hlarge
  have hwords (wanted : Option Nat) := hlegible.wordsFrom_eq .refl hshallow (hdepth wanted)
  refine ⟨A.graph.spelled depth s, hwords none, ?_, Graph.mem_spelled_iff hshallow, fun n => hwords (some n)⟩
  exact Graph.ascending_spelled (fun t ht => ⟨hasc t ht, fun u hu => ht.tail hu⟩) depth .refl

/-- The words that go on from the first label of some. -/
theorem wordsFrom_ascending_behind : ∃ b s, Builder.build [[97, 98], [97, 98, 99], [97, 99], [98]] = .ok b ∧
    (∃ r, b.automaton.root = .ok (some r) ∧ b.automaton.row r = .ok [⟨97, false, some s⟩, ⟨98, true, none⟩]) ∧
    b.automaton.wordsFrom s none = ⟨[[98], [98, 99], [99]], none⟩ ∧
    b.automaton.wordsFrom s (some 2) = ⟨[[98], [98, 99]], none⟩ := by
  have hrun : (do
      let b ← (Builder.build [[97, 98], [97, 98, 99], [97, 99], [98]]).toOption
      let r ← (← b.automaton.root.toOption)
      (b.automaton.row r).toOption) = some [⟨97, false, some ⟨12⟩⟩, ⟨98, true, none⟩] := by cbv
  simp only [Option.bind_eq_bind, Option.bind_eq_some_iff, toOption_eq_some] at hrun
  obtain ⟨b, hb, root, hroot, r, rfl, hrow⟩ := hrun
  obtain ⟨p, root, rfl, h⟩ := Builder.finished_of_build hb
  obtain ⟨r', hr', haccepts⟩ := h.root_accepts (by decide)
  obtain ⟨depth, -, hspells⟩ := h.spells
  obtain rfl : r = r' := Option.some.inj ((graph_root hroot).symm.trans hr')
  have hgraph : (p.reader root).graph.row r = [⟨97, false, some ⟨12⟩⟩, ⟨98, true, none⟩] := graph_row hrow
  have hreach : (p.reader root).graph.Reachable ⟨12⟩ := .step (.root hr') (by simp [Graph.targets, hgraph])
  obtain ⟨L, hL, hasc, hmem, htake⟩ := wordsFrom_ascending (A := p.reader root) (s := ⟨12⟩)
    (fun t ht => h.readable.row_ok (hreach.of_path ht)) (fun t ht => h.acyclic t (hreach.of_path ht))
    fun t ht => hspells.ascending t (hreach.of_path ht)
  obtain rfl : L = [[98], [98, 99], [99]] := by
    refine hasc.eq_of_mem_iff (by decide) fun w => ?_
    rw [hmem]
    cases w with
    | nil => simp [Graph.Accepts]
    | cons c w =>
      have := haccepts (97 :: c :: w)
      simpa [Graph.Accepts, hgraph] using this
  exact ⟨_, ⟨12⟩, hb, ⟨r, hroot, hrow⟩, hL, htake 2⟩

end Automaton

end WordAutomata
