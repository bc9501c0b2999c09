import WordAutomata.Proofs.Rank
import WordAutomata.Proofs.Sharing
import WordAutomata.Proofs.Spelling

namespace WordAutomata

namespace Graph

variable {G : Graph}

/-- How many words a state accepts. -/
theorem ncard_accepts {depth : Nat} {s : State} (h : G.Shallow depth s) (hs : G.Reachable s)
    (hasc : ∀ s, G.Reachable s → (G.row s).Pairwise fun t u => t.label < u.label) :
    {w | G.Accepts s w}.Finite ∧ {w | G.Accepts s w}.ncard = (G.spelled depth s).length := by
  have hset : {w | G.Accepts s w} = ↑(G.spelled depth s).toFinset := by
    ext w
    simp [mem_spelled_iff h]
  have hspelled : Ascending (G.spelled depth s) := ascending_spelled (fun t ht => ⟨hasc t ht, fun u hu => .step ht hu⟩) depth hs
  rw [hset, Set.ncard_coe_finset, List.toFinset_card_of_nodup hspelled.nodup]
  exact ⟨Finset.finite_toSet _, rfl⟩

end Graph

/-- Without cycles, there is a depth at which an automaton spells all its words. -/
theorem Graph.Acyclic.spells {G : Graph} (hacyclic : G.Acyclic)
    (hasc : ∀ s, G.Reachable s → (G.row s).Pairwise fun t u => t.label < u.label) :
    ∃ depth, G.Spells depth (G.root.elim [] (G.spelled depth)) := by
  obtain ⟨depth, hlarge, -⟩ := Automaton.exists_depth
  exact ⟨depth, fun _ hs => hacyclic.shallow hlarge hs, hasc, rfl⟩

namespace Writer

/-- A stream stores with every state how many words it accepts, or the largest count of 32 bits if there are more. If the
root accepts fewer than 2^32 words, each of them has a rank below their number, and no other word has the same. -/
theorem converts_counts {A : Automaton} (hread : A.Readable) (hacyclic : A.graph.Acyclic)
    (hasc : ∀ s, A.graph.Reachable s → (A.graph.row s).Pairwise fun t u => t.label < u.label) {w : Writer}
    (hnumbers : w.flags.numbers = true) {x : Stream} (h : w.Converts A x) (hreach : x.WithinReach) :
    (∃ f, A.graph.Iso x.automaton.graph f ∧ ∀ s, A.graph.Reachable s → {v | A.graph.Accepts s v}.Finite ∧
      x.automaton.storedCount (f s) = .ok (some (min {v | A.graph.Accepts s v}.ncard (2 ^ 32 - 1)))) ∧
    ∀ r, A.graph.root = some r → {v | A.graph.Accepts r v}.ncard < 2 ^ 32 →
      (∀ v, A.graph.Accepts r v → ∃ i < {v | A.graph.Accepts r v}.ncard, x.automaton.rank v = .ok (some i)) ∧
      ∀ u v, A.graph.Accepts r u → A.graph.Accepts r v → x.automaton.rank u = x.automaton.rank v → u = v := by
  obtain ⟨depth, hspells⟩ := hacyclic.spells hasc
  have hcard {s : State} (hs : A.graph.Reachable s) := Graph.ncard_accepts (hspells.shallow s hs) hs hasc
  constructor
  · obtain ⟨⟨-, f, hiso, hcounts⟩, -⟩ := h.restored hread hacyclic hreach
    obtain ⟨counts, hok, hstored⟩ := hcounts hnumbers
    obtain ⟨counts', hok', hcounted⟩ := hread.counts hacyclic
    obtain rfl := Except.ok.inj (hok.symm.trans hok')
    refine ⟨f, hiso, fun s hs => ⟨(hcard hs).1, ?_⟩⟩
    obtain ⟨n, hn, hcount⟩ := hstored s hs
    have hget := hcounted.getElem? hs
    rw [hn, hspells.count_eq hcounted hs, ← (hcard hs).2] at hget
    rw [hcount, Option.some.inj hget]
    rfl
  · intro r hr hsmall
    have hreachable : A.graph.Reachable r := .root hr
    rw [(hcard hreachable).2] at hsmall ⊢
    rw [hr, Option.elim_some] at hspells
    have hnumbered := h.numbered hread hspells hsmall hnumbers hreach
    have hmem (v : Word) : v ∈ A.graph.spelled depth r ↔ A.graph.Accepts r v :=
      Graph.mem_spelled_iff (hspells.shallow r hreachable) v
    have hrank (v : Word) (hv : A.graph.Accepts r v) : ∃ i, (A.graph.spelled depth r)[i]? = some v ∧
        x.automaton.rank v = .ok (some i) := by
      cases hindex : (A.graph.spelled depth r).idxOf? v with
      | none => exact absurd ((hmem v).2 hv) (List.idxOf?_eq_none_iff.1 hindex)
      | some i =>
        obtain ⟨hi, heq, -⟩ := List.idxOf?_eq_some_iff.1 hindex
        exact ⟨i, List.getElem?_eq_some_iff.2 ⟨hi, heq⟩, by rw [hnumbered.rank_eq hsmall, hindex]⟩
    refine ⟨?_, ?_⟩
    · intro v hv
      obtain ⟨i, hi, hok⟩ := hrank v hv
      exact ⟨i, (List.getElem?_eq_some_iff.1 hi).1, hok⟩
    · intro u v hu hv hsame
      obtain ⟨i, hi, hok⟩ := hrank u hu
      obtain ⟨j, hj, hok'⟩ := hrank v hv
      obtain rfl : i = j := Option.some.inj (Except.ok.inj (hok.symm.trans (hsame.trans hok')))
      exact Option.some.inj (hi.symm.trans hj)

/-- The words of 33 letters are one too many for the count of the root; those of two letters have ranks of their own. -/
theorem converts_counts_wordsOfLength :
    (∃ b x r r', Builder.build (wordsOfLength 33) = .ok b ∧
      (uniform { flags := Flags.ofList [.numbers] }).Converts b.automaton x ∧ b.automaton.graph.root = some r ∧
      {v | b.automaton.graph.Accepts r v}.ncard = 2 ^ 33 ∧ x.automaton.graph.root = some r' ∧
      x.automaton.storedCount r' = .ok (some (2 ^ 32 - 1))) ∧
    ∃ b x, Builder.build (wordsOfLength 2) = .ok b ∧
      (uniform { flags := Flags.ofList [.numbers] }).Converts b.automaton x ∧
      x.automaton.rank [97, 98] ≠ x.automaton.rank [98, 97] := by
  constructor
  · obtain ⟨p, root, x, r, hb, h, hconverts, hreach, hroot, -, hcard⟩ :=
      exists_converts_wordsOfLength (Nat.succ_pos 32) (by decide : 33 < 2 ^ 20)
    obtain ⟨depth, -, hspells⟩ := h.spells
    obtain ⟨⟨f, hiso, hcounts⟩, -⟩ := converts_counts h.readable h.acyclic hspells.ascending rfl hconverts hreach
    obtain ⟨-, hcount⟩ := hcounts r (.root hroot)
    refine ⟨_, x, r, f r, hb, hconverts, hroot, hcard, ?_, ?_⟩
    · rw [hiso.root_eq, hroot]
      rfl
    · rw [hcount, hcard]
      rfl
  · obtain ⟨p, root, x, r, hb, h, hconverts, hreach, hroot, haccepts, hcard⟩ :=
      exists_converts_wordsOfLength (Nat.succ_pos 1) (by decide : 2 < 2 ^ 20)
    obtain ⟨depth, -, hspells⟩ := h.spells
    obtain ⟨-, hranks⟩ := converts_counts h.readable h.acyclic hspells.ascending rfl hconverts hreach
    obtain ⟨-, hdistinct⟩ := hranks r hroot (by rw [hcard]; decide)
    refine ⟨_, x, hb, hconverts, fun hsame => ?_⟩
    have heq := hdistinct _ _ ((haccepts _).2 (by decide)) ((haccepts _).2 (by decide)) hsame
    cases heq

end Writer

end WordAutomata
