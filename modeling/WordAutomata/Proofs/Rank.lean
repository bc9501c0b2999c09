import WordAutomata.Lookup
import WordAutomata.Proofs.Conversion

namespace WordAutomata

theorem idxOf?_append (w : Word) (before after : List Word) :
    (before ++ after).idxOf? w = (before.idxOf? w).or ((after.idxOf? w).map (· + before.length)) :=
  List.findIdx?_append

theorem idxOf?_map_cons (c d : UInt8) (w : Word) (ws : List Word) :
    (ws.map (d :: ·)).idxOf? (c :: w) = if d = c then ws.idxOf? w else none := by
  by_cases hd : d = c
  · rw [if_pos hd, hd]
    have hsame : ((· == c :: w) ∘ (c :: ·) : Word → Bool) = (· == w) := by
      funext v
      simp
    rw [List.idxOf?, List.idxOf?, List.findIdx?_map, hsame]
  · rw [if_neg hd, List.idxOf?_eq_none_iff]
    simp [hd]

namespace Transition

variable {below : State → List Word} {t : Transition}

theorem cons_notMem_words {c : UInt8} {w : Word} (h : t.label ≠ c) : c :: w ∉ t.words below := by
  cases hf : t.isFinal <;> simp [words, hf, h, Ne.symm h]

theorem idxOf?_words (w : Word) : (t.words below).idxOf? (t.label :: w) =
    if t.isFinal = true ∧ w = [] then some 0
    else ((t.target.elim [] below).idxOf? w).map (· + if t.isFinal then 1 else 0) := by
  rw [words, idxOf?_append, idxOf?_map_cons, if_pos rfl]
  by_cases hf : t.isFinal
  · by_cases hw : w = []
    · simp [hf, hw, List.idxOf?_cons]
    · have hne : ([t.label] == t.label :: w) = false := by simpa using Ne.symm hw
      simp [hf, hw, List.idxOf?_cons, hne]
  · simp [hf]

theorem getElem?_words (i : Nat) : (t.words below)[i]? =
    if t.isFinal = true ∧ i = 0 then some [t.label]
    else ((t.target.elim [] below)[if t.isFinal then i - 1 else i]?).map (t.label :: ·) := by
  by_cases hf : t.isFinal
  · cases i <;> simp [words, hf]
  · simp [words, hf]

theorem cons_notMem_flatMap (below : State → List Word) {c : UInt8} (w : Word) {ts : List Transition}
    (h : ∀ t ∈ ts, t.label ≠ c) : c :: w ∉ ts.flatMap (words below) := by
  intro hmem
  obtain ⟨t, ht, hw⟩ := List.mem_flatMap.1 hmem
  exact cons_notMem_words (h t ht) hw

/-- The words that begin with a label are those of its arc. -/
theorem idxOf?_flatMap {before after : List Transition} (w : Word) (hbefore : ∀ u ∈ before, u.label ≠ t.label)
    (hafter : ∀ u ∈ after, u.label ≠ t.label) : ((before ++ t :: after).flatMap (words below)).idxOf? (t.label :: w) =
      ((t.words below).idxOf? (t.label :: w)).map (· + (before.flatMap (words below)).length) := by
  have hno := List.idxOf?_eq_none_iff.2 (cons_notMem_flatMap below w hbefore)
  have hno' := List.idxOf?_eq_none_iff.2 (cons_notMem_flatMap below w hafter)
  rw [List.flatMap_append, List.flatMap_cons, idxOf?_append, idxOf?_append, hno, hno']
  simp

end Transition

theorem split_labels {ts : List Transition} (hasc : ts.Pairwise fun t u => t.label < u.label) (c : UInt8) :
    (∀ t ∈ ts, t.label ≠ c) ∨ ∃ before t after, ts = before ++ t :: after ∧ t.label = c ∧
      (∀ u ∈ before, u.label ≠ t.label) ∧ ∀ u ∈ after, u.label ≠ t.label := by
  by_cases h : ∃ t ∈ ts, t.label = c
  · obtain ⟨t, ht, hlabel⟩ := h
    obtain ⟨before, after, rfl⟩ := List.append_of_mem ht
    obtain ⟨-, hright, hleft⟩ := List.pairwise_append.1 hasc
    refine .inr ⟨before, t, after, rfl, hlabel, ?_, ?_⟩
    · intro u hu
      exact UInt8.ne_of_lt (hleft u hu t (by simp))
    · intro u hu
      exact (UInt8.ne_of_lt (List.rel_of_pairwise_cons hright hu)).symm
  · exact .inl fun t ht hlabel => h ⟨t, ht, hlabel⟩

namespace Automaton

variable {A : Automaton}

theorem addRank_eq {m n : Nat} (h : m + n < 2 ^ 32) : addRank m n = .ok (m + n) := if_pos h

/-- The states that some arcs lead to store how many words they spell. -/
def Stores (A : Automaton) (below : State → List Word) (t : Transition) : Prop :=
  ∀ s ∈ t.target, A.storedCount s = .ok (some (below s).length)

variable {below : State → List Word}

theorem countBelow_eq {a : Arc} {t : Transition} (ht : A.transition a = .ok t) (hstores : A.Stores below t) :
    A.countBelow a = .ok (t.target.elim 0 fun s => (below s).length) := by
  obtain ⟨-, -, htarget⟩ := transition_eq_ok.1 ht
  rw [countBelow, htarget]
  cases hs : t.target with
  | none => rfl
  | some s => simp [hstores s hs]

/-- How a single arc is looked at for the rank of a word that begins with a label. -/
def rankStep (A : Automaton) (c : UInt8) (rank : Nat) (a : Arc) : Read (Nat ⊕ (Nat × Arc)) := do
  if (← A.label a) = c then return .inr (rank, a)
  let rank ← if ← A.isFinal a then addRank rank 1 else pure rank
  return .inl (← addRank rank (← A.countBelow a))

theorem rankArc_eq (c : UInt8) : A.rankArc c = A.along (A.rankStep c) := rfl

/-- An arc with another label is passed over, and its words are counted. -/
theorem rankStep_eq (c : UInt8) (rank : Nat) {a : Arc} {t : Transition} (ht : A.transition a = .ok t)
    (hstores : A.Stores below t) (hroom : rank + (t.words below).length < 2 ^ 32) :
    A.rankStep c rank a = .ok (if t.label = c then .inr (rank, a) else .inl (rank + (t.words below).length)) := by
  obtain ⟨hlabel, hfinal, -⟩ := transition_eq_ok.1 ht
  have hcount := countBelow_eq ht hstores
  rw [Transition.length_words] at hroom ⊢
  by_cases hc : t.label = c
  · simp [rankStep, hlabel, hc]
  · by_cases hf : t.isFinal
    · rw [if_pos hf] at hroom ⊢
      have hone : addRank rank 1 = .ok (rank + 1) := addRank_eq (by omega)
      have hsum := addRank_eq (m := rank + 1) (n := t.target.elim 0 fun s => (below s).length) (by omega)
      simp [rankStep, hlabel, hfinal, hcount, hc, hf, hone, hsum, Nat.add_assoc]
    · rw [if_neg hf] at hroom ⊢
      have hsum := addRank_eq (m := rank) (n := t.target.elim 0 fun s => (below s).length) (by omega)
      simp [rankStep, hlabel, hfinal, hcount, hc, hf, hsum]

section

variable {c : UInt8} {a : Arc}

theorem Carries.rankArc_none {ts : List Transition} (h : A.Carries a ts) {rank : Nat}
    (hstores : ∀ t ∈ ts, A.Stores below t) (hroom : rank + (ts.flatMap (Transition.words below)).length < 2 ^ 32)
    (hother : ∀ t ∈ ts, t.label ≠ c) : A.rankArc c rank a = .ok none := by
  rw [rankArc_eq]
  induction h generalizing rank with
  | @last a t hnext ht =>
    have hlook := rankStep_eq c rank ht (hstores t (by simp)) (by simpa using hroom)
    rw [if_neg (hother t (by simp))] at hlook
    exact along_last hnext hlook
  | @more a b t ts hnext ht _ ih =>
    rw [List.flatMap_cons, List.length_append] at hroom
    have hlook := rankStep_eq c rank ht (hstores t (by simp)) (by omega)
    rw [if_neg (hother t (by simp))] at hlook
    rw [along_more hnext hlook]
    exact ih (fun u hu => hstores u (List.mem_cons_of_mem t hu)) (by omega)
      fun u hu => hother u (List.mem_cons_of_mem t hu)

/-- If the first arc has the label, nothing is looked up behind it. -/
theorem Carries.rankArc_head {t : Transition} {ts : List Transition} (h : A.Carries a (t :: ts)) (hlabel : t.label = c)
    (rank : Nat) : A.transition a = .ok t ∧ A.rankArc c rank a = .ok (some (rank, a)) := by
  obtain ⟨t', ts', next, heq, hnext, ht, -⟩ := h.step
  obtain ⟨rfl, rfl⟩ : t = t' ∧ ts = ts' := by simpa using heq
  obtain ⟨ha, -, -⟩ := transition_eq_ok.1 ht
  have hlook : A.rankStep c rank a = .ok (.inr (rank, a)) := by simp [rankStep, ha, hlabel]
  refine ⟨ht, ?_⟩
  rw [rankArc_eq]
  cases next with
  | none => exact along_last hnext hlook
  | some b => exact along_more hnext hlook

/-- The words of the arcs in front are counted on the way to the arc with the label. -/
theorem Carries.rankArc_some {before after : List Transition} {t : Transition} (rank : Nat)
    (h : A.Carries a (before ++ t :: after)) (hstores : ∀ u ∈ before ++ t :: after, A.Stores below u)
    (hroom : rank + ((before ++ t :: after).flatMap (Transition.words below)).length < 2 ^ 32) (hlabel : t.label = c)
    (hbefore : ∀ u ∈ before, u.label ≠ c) :
    ∃ b, A.transition b = .ok t ∧
      A.rankArc c rank a = .ok (some (rank + (before.flatMap (Transition.words below)).length, b)) := by
  induction before generalizing rank a with
  | nil =>
    obtain ⟨ht, hfound⟩ := h.rankArc_head hlabel rank
    exact ⟨a, ht, hfound⟩
  | cons u before ih =>
    obtain ⟨u', ts, next, heq, hnext, hu, hrest⟩ := h.step
    obtain ⟨rfl, rfl⟩ : u = u' ∧ before ++ t :: after = ts := by simpa using heq
    simp only [List.cons_append, List.flatMap_cons, List.length_append] at hroom
    have hlook := rankStep_eq c rank hu (hstores u (by simp)) (by omega)
    rw [if_neg (hbefore u (by simp))] at hlook
    cases next with
    | none => cases before <;> simp [CarriesOn] at hrest
    | some b =>
      obtain ⟨d, hd, hfound⟩ := ih (rank + (u.words below).length) hrest
        (fun v hv => hstores v (List.mem_cons_of_mem u hv)) (by omega) fun v hv => hbefore v (List.mem_cons_of_mem u hv)
      refine ⟨d, hd, ?_⟩
      rw [rankArc_eq, along_more hnext hlook]
      simpa [Nat.add_assoc, rankArc_eq] using hfound

end

/-- How a single arc is looked at for the word with a rank. -/
def placeStep (A : Automaton) (rank : Nat) (a : Arc) : Read (Nat ⊕ (Nat × Arc)) := do
  let here ← addRank (if ← A.isFinal a then 1 else 0) (← A.countBelow a)
  return if here ≤ rank then .inl (rank - here) else .inr (rank, a)

theorem arcAtRank_eq : A.arcAtRank = A.along A.placeStep := rfl

theorem placeStep_eq (rank : Nat) {a : Arc} {t : Transition} (ht : A.transition a = .ok t)
    (hstores : A.Stores below t) (hroom : (t.words below).length < 2 ^ 32) : A.placeStep rank a =
      .ok (if (t.words below).length ≤ rank then .inl (rank - (t.words below).length) else .inr (rank, a)) := by
  obtain ⟨-, hfinal, -⟩ := transition_eq_ok.1 ht
  have hcount := countBelow_eq ht hstores
  rw [Transition.length_words] at hroom ⊢
  have hsum := addRank_eq hroom
  simp only [placeStep, hfinal, hcount, ok_bind, hsum, pure_eq_ok]

/-- A rank lies beyond the words of all arcs, or it leads to an arc and the rank among the words of that arc. -/
theorem Carries.arcAtRank_cases {a : Arc} {ts : List Transition} (h : A.Carries a ts) (rank : Nat)
    (hstores : ∀ t ∈ ts, A.Stores below t) (hroom : (ts.flatMap (Transition.words below)).length < 2 ^ 32) :
    (ts.flatMap (Transition.words below)).length ≤ rank ∧ A.arcAtRank rank a = .ok none ∨
    ∃ before t after b i, ts = before ++ t :: after ∧ A.transition b = .ok t ∧ i < (t.words below).length ∧
      rank = (before.flatMap (Transition.words below)).length + i ∧ A.arcAtRank rank a = .ok (some (i, b)) := by
  rw [arcAtRank_eq]
  induction h generalizing rank with
  | @last a t hnext ht =>
    have hlook := placeStep_eq rank ht (hstores t (by simp)) (by simpa using hroom)
    by_cases hle : (t.words below).length ≤ rank
    · rw [if_pos hle] at hlook
      exact .inl ⟨by simpa using hle, along_last hnext hlook⟩
    · rw [if_neg hle] at hlook
      exact .inr ⟨[], t, [], a, rank, rfl, ht, by omega, by simp, along_last hnext hlook⟩
  | @more a b t ts hnext ht _ ih =>
    rw [List.flatMap_cons, List.length_append] at hroom
    have hlook := placeStep_eq rank ht (hstores t (by simp)) (by omega)
    by_cases hle : (t.words below).length ≤ rank
    · rw [if_pos hle] at hlook
      rw [along_more hnext hlook, Sum.elim_inl]
      rcases ih (rank - (t.words below).length) (fun u hu => hstores u (List.mem_cons_of_mem t hu)) (by omega) with
        ⟨hlen, hnone⟩ | ⟨before, u, after, d, i, rfl, hu, hi, hrank, hfound⟩
      · refine .inl ⟨?_, hnone⟩
        rw [List.flatMap_cons, List.length_append]
        omega
      · refine .inr ⟨t :: before, u, after, d, i, rfl, hu, hi, ?_, hfound⟩
        rw [List.flatMap_cons, List.length_append]
        omega
    · rw [if_neg hle] at hlook
      exact .inr ⟨[], t, ts, a, rank, rfl, ht, by omega, by simp, along_more hnext hlook⟩

/-- What an arc leads to, once it has been found for a word that begins with its label. -/
theorem rankFrom_cons {c : UInt8} {w : Word} {s : State} {a b : Arc} {rank rank' : Nat} {t : Transition}
    (ha : A.firstArc s = .ok a) (hfound : A.rankArc c rank a = .ok (some (rank', b))) (ht : A.transition b = .ok t)
    (hroom : rank' + (if t.isFinal then 1 else 0) < 2 ^ 32) : A.rankFrom s rank (c :: w) =
      if w = [] then .ok (if t.isFinal then some rank' else none)
      else t.target.elim (.ok none) fun u => A.rankFrom u (rank' + if t.isFinal then 1 else 0) w := by
  obtain ⟨-, hfinal, htarget⟩ := transition_eq_ok.1 ht
  rw [rankFrom, ha, ok_bind, hfound]
  by_cases hw : w = []
  · simp [hfinal, hw]
  · by_cases hf : t.isFinal
    · rw [if_pos hf] at hroom
      cases hs : t.target <;> simp [hfinal, htarget, hw, hf, hs, addRank_eq hroom]
    · cases hs : t.target <;> simp [hfinal, htarget, hw, hf, hs]

/-- The bound on the depth is kept as a variable, since it is too large a number to be unfolded. -/
theorem wordAt_of_root {r : State} {rank limit : Nat} (hnumbers : A.flags.numbers = true) (hroot : A.root = .ok (some r))
    (hlimit : 1 <<< 32 * (rank + 1) = limit) : A.wordAt rank = A.wordFrom limit r rank := by
  rw [wordAt, hnumbers, hroot, hlimit]
  rfl

/-- An automaton that spells some words, and stores with every state how many words follow. -/
structure Numbered (A : Automaton) (depth : Nat) (W : List Word) : Prop where
  readable : A.Readable
  spells : A.graph.Spells depth W
  numbers : A.flags.numbers = true
  stored : ∀ s, A.graph.Reachable s → A.storedCount s = .ok (some (A.graph.spelled depth s).length)

namespace Numbered

variable {depth : Nat} {W : List Word} (h : A.Numbered depth W) {s : State} (hs : A.graph.Reachable s)

include h hs

theorem spelled_eq : A.graph.spelled depth s = (A.graph.row s).flatMap (Transition.words (A.graph.spelled depth)) :=
  Graph.spelled_eq (h.spells.shallow s hs)

theorem stores : ∀ t ∈ A.graph.row s, A.Stores (A.graph.spelled depth) t := by
  intro t ht u hu
  exact h.stored u (.step hs (Graph.mem_targets.2 ⟨t, ht, hu⟩))

theorem rankFrom_eq (rank : Nat) (hroom : rank + (A.graph.spelled depth s).length < 2 ^ 32) (w : Word) :
    A.rankFrom s rank w = .ok (((A.graph.spelled depth s).idxOf? w).map (rank + ·)) := by
  induction w generalizing s rank with
  | nil =>
    have hnil := List.idxOf?_eq_none_iff.2 (Graph.nil_notMem_spelled (G := A.graph) depth s)
    rw [hnil]
    rfl
  | cons c w ih =>
    obtain ⟨a, ha, hcarries⟩ := row_eq_ok.1 (h.readable.row hs)
    have hstores := h.stores hs
    rw [h.spelled_eq hs] at hroom ⊢
    rcases split_labels (h.spells.ascending s hs) c with hother | ⟨before, t, after, hrow, rfl, hbefore, hafter⟩
    · have hnone := hcarries.rankArc_none hstores hroom hother
      have hno := List.idxOf?_eq_none_iff.2
        (Transition.cons_notMem_flatMap (A.graph.spelled depth) w hother)
      rw [rankFrom, ha, ok_bind, hnone, hno]
      rfl
    · rw [hrow] at hcarries hstores hroom ⊢
      obtain ⟨b, ht, hfound⟩ := Carries.rankArc_some rank hcarries hstores hroom rfl hbefore
      have hlength : (t.words (A.graph.spelled depth)).length =
          (if t.isFinal then 1 else 0) + t.target.elim 0 fun u => (A.graph.spelled depth u).length :=
        Transition.length_words _ t
      rw [List.flatMap_append, List.flatMap_cons, List.length_append, List.length_append] at hroom
      rw [rankFrom_cons ha hfound ht (by omega), Transition.idxOf?_flatMap w hbefore hafter, Transition.idxOf?_words]
      by_cases hw : w = []
      · have hnil : (t.target.elim [] (A.graph.spelled depth)).idxOf? [] = none := by
          cases t.target with
          | none => rfl
          | some u => exact List.idxOf?_eq_none_iff.2 (Graph.nil_notMem_spelled depth u)
        by_cases hf : t.isFinal
        · simp [hw, hf]
        · simp [hw, hf, hnil]
      · cases hu : t.target with
        | none => simp [hw]
        | some u =>
          have hreach : A.graph.Reachable u := .step hs (Graph.mem_targets.2 ⟨t, by simp [hrow], hu⟩)
          rw [hu, Option.elim_some] at hlength
          rw [if_neg hw, Option.elim_some, Option.elim_some, ih hreach _ (by omega)]
          simp [hw, Option.map_map, Function.comp_def, Nat.add_assoc, Nat.add_comm, Nat.add_left_comm]

theorem wordFrom_eq (hsmall : W.length < 2 ^ 32) {n : Nat} (hshallow : A.graph.Shallow n s) (rank : Nat) :
    A.wordFrom n s rank = .ok (A.graph.spelled depth s)[rank]? := by
  induction n generalizing s rank with
  | zero => exact hshallow.elim
  | succ n ih =>
    obtain ⟨a, ha, hcarries⟩ := row_eq_ok.1 (h.readable.row hs)
    have hle := h.spells.length_spelled_le hs
    rw [h.spelled_eq hs] at hle ⊢
    rw [wordFrom, ha, ok_bind]
    rcases hcarries.arcAtRank_cases rank (h.stores hs) (by omega) with
      ⟨hlength, hnone⟩ | ⟨before, t, after, b, i, hrow, ht, hi, hrank, hfound⟩
    · rw [hnone, List.getElem?_eq_none hlength]
      rfl
    · have hword : ((A.graph.row s).flatMap (Transition.words (A.graph.spelled depth)))[rank]? =
          (t.words (A.graph.spelled depth))[i]? := by
        rw [hrow, List.flatMap_append, List.flatMap_cons, hrank, List.getElem?_append_right (by omega),
          Nat.add_sub_cancel_left, List.getElem?_append_left hi]
      obtain ⟨hlabel, hfinal, htarget⟩ := transition_eq_ok.1 ht
      rw [hword, hfound, Transition.getElem?_words]
      simp only [ok_bind, hlabel, hfinal, htarget]
      by_cases hfirst : t.isFinal = true ∧ i = 0
      · simp [hfirst.1, hfirst.2]
      · have hgo : (t.isFinal && i == 0) = false := by simpa using hfirst
        rw [if_neg hfirst, hgo]
        cases hu : t.target with
        | none => simp
        | some u =>
          have hmem : u ∈ A.graph.targets s := Graph.mem_targets.2 ⟨t, by simp [hrow], hu⟩
          simp [ih (.step hs hmem) (hshallow u hmem)]

omit hs in
theorem rank_eq (hsmall : W.length < 2 ^ 32) (w : Word) : A.rank w = .ok (W.idxOf? w) := by
  rw [rank, h.numbers, h.readable.root, ← h.spells.words_eq]
  cases hroot : A.graph.root with
  | none => rfl
  | some r =>
    have hreach : A.graph.Reachable r := .root hroot
    have hle := h.spells.length_spelled_le hreach
    have hrank := h.rankFrom_eq hreach 0 (by omega) w
    simpa using hrank

omit hs in
theorem wordAt_eq (hsmall : W.length < 2 ^ 32) (hdepth : depth ≤ depthFor none) (rank : Nat) :
    A.wordAt rank = .ok W[rank]? := by
  have hroot := h.readable.root
  rw [← h.spells.words_eq]
  cases hr : A.graph.root with
  | none =>
    rw [hr] at hroot
    simp [wordAt, h.numbers, hroot]
  | some r =>
    rw [hr] at hroot
    have hreach : A.graph.Reachable r := .root hr
    have hlimit : depth ≤ 1 <<< 32 * (rank + 1) := by
      have hone : depthFor none = 1 <<< 32 := rfl
      omega
    have hword (limit : Nat) (hle : depth ≤ limit) :
        A.wordFrom limit r rank = .ok (A.graph.spelled depth r)[rank]? :=
      h.wordFrom_eq hreach hsmall ((h.spells.shallow r hreach).mono hle).1 rank
    rw [wordAt_of_root h.numbers hroot rfl, hword _ hlimit, Option.elim_some]

end Numbered

end Automaton

namespace Writer

theorem Converts.numbered {w : Writer} {A : Automaton} {x : Stream} (h : w.Converts A x) (hread : A.Readable)
    {depth : Nat} {W : List Word} (hspells : A.graph.Spells depth W) (hsmall : W.length < 2 ^ 32)
    (hnumbers : w.flags.numbers = true) (hreach : x.WithinReach) : x.automaton.Numbered depth W := by
  obtain ⟨⟨hreadable, f, hiso, hcounts⟩, hflag⟩ := h.restored hread hspells.acyclic hreach
  refine ⟨hreadable, hspells.of_iso hiso, hflag hnumbers, ?_⟩
  intro t ht
  obtain ⟨s, hs, rfl⟩ := hiso.bijOn.surjOn ht
  obtain ⟨counts, hok, hstored⟩ := hcounts hnumbers
  obtain ⟨counts', hok', hcounted⟩ := hread.counts hspells.acyclic
  obtain rfl := Except.ok.inj (hok.symm.trans hok')
  obtain ⟨n, hn, hcount⟩ := hstored s hs
  have hle := hspells.length_spelled_le hs
  have hmax : W.length ≤ maxCount := Nat.le_pred_of_lt hsmall
  have heq : n = (A.graph.spelled depth s).length := by
    have hget := hcounted.getElem? hs
    rw [hn, hspells.count_eq hcounted hs, Nat.min_eq_left (by omega)] at hget
    exact Option.some.inj hget
  rw [hcount, heq, hiso.spelled_eq depth hs]

/-- What has been written of some words with their counts, and read again, numbers these words from 0 on and no others,
and finds each of them by its number, as long as offsets reach all of it. -/
theorem converts_rank {W : List Word} {b : RecordBuffer} (hb : Builder.build W = .ok b) (hsmall : W.length < 2 ^ 32)
    {w : Writer} (hnumbers : w.flags.numbers = true) {x : Stream} (h : w.Converts b.automaton x)
    (hreach : x.WithinReach) :
    (∀ s i, x.automaton.rank s = .ok (some i) ↔ W[i]? = some s) ∧
      (∀ s, x.automaton.rank s = .ok none ↔ s ∉ W) ∧ ∀ i, x.automaton.wordAt i = .ok W[i]? := by
  obtain ⟨-, hasc⟩ := Builder.ascending_of_build hb
  obtain ⟨p, root, rfl, hfinished⟩ := Builder.finished_of_build hb
  obtain ⟨depth, hdepth, hspells⟩ := hfinished.spells
  have hnumbered := h.numbered hfinished.readable hspells hsmall hnumbers hreach
  have hnodup : W.Nodup := hasc.nodup
  refine ⟨?_, ?_, ?_⟩
  · intro s i
    rw [hnumbered.rank_eq hsmall, Except.ok.injEq, List.idxOf?_eq_some_iff, List.getElem?_eq_some_iff]
    constructor
    · intro ⟨hi, heq, _⟩
      exact ⟨hi, heq⟩
    · intro ⟨hi, heq⟩
      refine ⟨hi, heq, ?_⟩
      intro j hj hsame
      have hij := (hnodup.getElem_inj_iff).1 (hsame.trans heq.symm)
      omega
  · intro s
    rw [hnumbered.rank_eq hsmall, Except.ok.injEq, List.idxOf?_eq_none_iff]
  · intro i
    exact hnumbered.wordAt_eq hsmall hdepth i

theorem converts_rank_beginning : ∃ b x, Builder.build [[97], [97, 98], [98]] = .ok b ∧
    (compact { flags := Flags.ofList [.numbers] }).Converts b.automaton x ∧
    x.automaton.rank [97, 98] = .ok (some 1) ∧ x.automaton.wordAt 2 = .ok (some [98]) := by
  have hrun : (do
      let b ← (Builder.build [[97], [97, 98], [98]]).toOption
      let x ← (compact { flags := Flags.ofList [.numbers] }).convert? b.automaton
      return x.byteLength) = some 22 := by cbv
  simp only [Option.bind_eq_bind, Option.bind_eq_some_iff, toOption_eq_some, Option.pure_def, Option.some.injEq] at hrun
  obtain ⟨b, hb, x, hx, hsize⟩ := hrun
  have hconverts := converts_of_convert? hx
  have hreach : x.WithinReach := Stream.withinReach_of_byteLength (by omega)
  obtain ⟨hrank, -, hword⟩ := converts_rank hb (by decide) rfl hconverts hreach
  exact ⟨b, x, hb, hconverts, (hrank _ 1).2 rfl, hword 2⟩

end Writer

end WordAutomata
