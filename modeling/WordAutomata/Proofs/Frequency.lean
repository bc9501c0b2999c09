import Mathlib
import WordAutomata.Builder
import WordAutomata.Proofs.Compact

namespace WordAutomata

open Std (TreeMap)

/-- How many arcs of some states carry a label. -/
def Graph.frequency (G : Graph) (states : List State) (c : UInt8) : Nat :=
  (states.map fun s => (G.row s).countP fun x => x.label = c).sum

theorem Graph.count_labels (G : Graph) (states : List State) : (G.labels states).count = G.frequency states := by
  funext c
  induction states with
  | nil => rfl
  | cons s states ih =>
    rw [Graph.labels] at ih
    rw [Graph.labels, List.flatMap_cons, List.count_append, ih, Graph.frequency, Graph.frequency, List.map_cons, List.sum_cons,
      List.count_eq_countP, List.countP_map]
    rfl

theorem LabelCount.before_iff {a b : LabelCount} :
    a.before b = true ↔ b.count < a.count ∨ a.count = b.count ∧ a.label ≤ b.label := by
  simp [before]

theorem LabelCount.before_trans (a b c : LabelCount) (hab : a.before b = true) (hbc : b.before c = true) :
    a.before c = true := by
  rw [before_iff] at hab hbc ⊢
  grind

theorem LabelCount.before_total (a b : LabelCount) : (a.before b || b.before a) = true := by
  rw [Bool.or_eq_true, before_iff, before_iff]
  grind

namespace LabelTable

/-- A label comes before another one if it is more frequent, or as frequent and smaller. -/
def Preferred (frequency : UInt8 → Nat) (c d : UInt8) : Prop :=
  frequency d < frequency c ∨ frequency c = frequency d ∧ c < d

theorem preferred_of_ne {frequency : UInt8 → Nat} {c d : UInt8}
    (h : frequency d < frequency c ∨ frequency c = frequency d ∧ c ≤ d) (hne : c ≠ d) : Preferred frequency c d :=
  h.imp_right fun hle => ⟨hle.1, UInt8.lt_of_le_of_ne hle.2 hne⟩

/-- The labels of the rows of a ranking. -/
def ranked (labels : List UInt8) : List UInt8 := (ranking labels).map LabelCount.label

section

variable (labels : List UInt8)

theorem getElem?_frequencies (c : UInt8) :
    (frequencies labels)[c]? = if c ∈ labels then some (labels.count c) else none := by
  induction labels using List.reverseRecOn generalizing c with
  | nil => simp [frequencies]
  | append_singleton labels d ih =>
    have hstep : frequencies (labels ++ [d]) = (frequencies labels).insert d ((frequencies labels).getD d 0 + 1) := by
      rw [frequencies, List.foldl_append]
      rfl
    have hcount : (frequencies labels).getD d 0 = labels.count d := by
      rw [TreeMap.getD_eq_getD_getElem?, ih]
      split
      · rfl
      · rename_i hd
        exact (List.count_eq_zero.2 hd).symm
    rw [hstep, TreeMap.getElem?_insert, hcount, ih]
    by_cases hdc : d = c
    · subst hdc
      simp
    · simp [Std.LawfulEqCmp.compare_eq_iff_eq, hdc, Ne.symm hdc]

theorem mem_ranking {r : LabelCount} : r ∈ ranking labels ↔ r.label ∈ labels ∧ r.count = labels.count r.label := by
  rw [ranking, List.mem_mergeSort, List.mem_map]
  constructor
  · rintro ⟨⟨c, n⟩, hmem, rfl⟩
    rw [TreeMap.mem_toList_iff_getElem?_eq_some, getElem?_frequencies] at hmem
    split at hmem
    · rename_i hc
      exact ⟨hc, (Option.some.inj hmem).symm⟩
    · cases hmem
  · rintro ⟨hc, hn⟩
    refine ⟨(r.label, r.count), ?_, rfl⟩
    rw [TreeMap.mem_toList_iff_getElem?_eq_some, getElem?_frequencies, if_pos hc, hn]

theorem mem_ranked {c : UInt8} : c ∈ ranked labels ↔ c ∈ labels := by
  rw [ranked, List.mem_map]
  constructor
  · rintro ⟨r, hr, rfl⟩
    exact ((mem_ranking labels).1 hr).1
  · intro hc
    exact ⟨⟨c, labels.count c⟩, (mem_ranking labels).2 ⟨hc, rfl⟩, rfl⟩

theorem nodup_ranked : (ranked labels).Nodup := by
  have hperm : (ranked labels).Perm ((frequencies labels).toList.map Prod.fst) := by
    rw [ranked, ranking]
    refine ((List.mergeSort_perm _ _).map _).trans ?_
    rw [List.map_map]
    exact .refl _
  rw [hperm.nodup_iff, List.Nodup, List.pairwise_map]
  exact (TreeMap.distinct_keys_toList).imp fun h heq => h (Std.LawfulEqCmp.compare_eq_iff_eq.2 heq)

theorem pairwise_ranked : (ranked labels).Pairwise (Preferred labels.count) := by
  have hsorted : (ranking labels).Pairwise fun a b => a.before b = true :=
    List.pairwise_mergeSort LabelCount.before_trans LabelCount.before_total _
  refine List.pairwise_map.2 ((hsorted.and (List.pairwise_map.1 (nodup_ranked labels))).imp_of_mem ?_)
  rintro a b ha hb ⟨hbefore, hne⟩
  rw [LabelCount.before_iff, ((mem_ranking labels).1 ha).2, ((mem_ranking labels).1 hb).2] at hbefore
  exact preferred_of_ne hbefore hne

end

/-- In a table that is filled from its end, a label has as index what is left of the entries behind it in the order of
preference. -/
theorem index_reverse {cs : List UInt8} (hcs : cs.Nodup) (c : UInt8) :
    index ⟨0 :: cs.reverse⟩ c = if c ∈ cs then cs.length - cs.idxOf c else 0 := by
  have htail : (0 :: cs.reverse).tail = cs.reverse := rfl
  rw [index, htail]
  split
  · rename_i i hi
    obtain ⟨hlt, hc, -⟩ := List.idxOf?_eq_some_iff.1 hi
    rw [List.length_reverse] at hlt
    rw [List.getElem_reverse] at hc
    have hidx := hcs.idxOf_getElem (cs.length - 1 - i) (by omega)
    rw [hc] at hidx
    rw [hidx, if_pos (hc ▸ List.getElem_mem _)]
    omega
  · rename_i hnone
    rw [List.idxOf?_eq_none_iff, List.mem_reverse] at hnone
    rw [if_neg hnone]

/-- The entries of a table and the index of each label, while they are being filled in. -/
structure Filling where
  entries : List UInt8
  index : UInt8 → UInt8

/-- A label gets its place, the first in the order of preference at the end. -/
def Filling.enter (f : Filling) (c : UInt8) (rank : Nat) : Filling :=
  let slot := f.entries.length - 1 - rank
  ⟨f.entries.set slot c, Function.update f.index c (UInt8.ofNat slot)⟩

/-- All labels in the order of preference are filled into a table with one entry more. -/
def fill (cs : List UInt8) : Filling :=
  cs.zipIdx.foldl (fun f x => f.enter x.1 x.2) ⟨List.replicate (1 + cs.length) 0, fun _ => 0⟩

theorem foldl_enter {front rest : List UInt8} (hrest : rest.Nodup) (index : UInt8 → UInt8) :
    (rest.zipIdx front.length).foldl (fun f x => f.enter x.1 x.2)
      (⟨List.replicate (1 + rest.length) 0 ++ front.reverse, index⟩ : Filling) =
    ⟨0 :: (front ++ rest).reverse,
      fun c => if c ∈ rest then UInt8.ofNat (rest.length - rest.idxOf c) else index c⟩ := by
  induction rest generalizing front index with
  | nil => simp
  | cons d rest ih =>
    obtain ⟨hd, hrest⟩ := List.nodup_cons.1 hrest
    have hslot : (List.replicate (1 + (d :: rest).length) (0 : UInt8) ++ front.reverse).length - 1 - front.length =
        rest.length + 1 := by
      simp
      omega
    have henter : Filling.enter ⟨List.replicate (1 + (d :: rest).length) 0 ++ front.reverse, index⟩ d front.length =
        ⟨List.replicate (1 + rest.length) 0 ++ (front ++ [d]).reverse,
          Function.update index d (UInt8.ofNat (rest.length + 1))⟩ := by
      have hempty : List.replicate (1 + (d :: rest).length) (0 : UInt8) = List.replicate (1 + rest.length) 0 ++ [0] := by
        rw [List.length_cons, ← Nat.add_assoc, List.replicate_succ']
      simp only [Filling.enter, hslot]
      rw [hempty, List.append_assoc, List.set_append_right _ _ (by simp; omega)]
      simp [Nat.add_comm]
    rw [List.zipIdx_cons, List.foldl_cons, henter]
    have hlength : front.length + 1 = (front ++ [d]).length := by simp
    rw [hlength, ih hrest]
    congr 1
    · simp
    · funext c
      by_cases hdc : d = c
      · subst hdc
        simp [hd]
      · simp [hdc, Ne.symm hdc, List.idxOf_cons_ne]

theorem fill_eq {cs : List UInt8} (hcs : cs.Nodup) (hroom : cs.length ≤ room) :
    (fill cs).entries = 0 :: cs.reverse ∧ ∀ c, ((fill cs).index c).toNat = index ⟨0 :: cs.reverse⟩ c := by
  have hfill := @foldl_enter [] cs hcs fun _ => 0
  rw [List.reverse_nil, List.append_nil, List.nil_append, List.length_nil] at hfill
  rw [fill, hfill]
  refine ⟨rfl, fun c => ?_⟩
  rw [index_reverse hcs]
  rw [room] at hroom
  by_cases hc : c ∈ cs
  · simp only [if_pos hc]
    exact UInt8.toNat_ofNat_of_lt' (Nat.lt_of_le_of_lt (Nat.sub_le _ _) (Nat.lt_of_le_of_lt hroom (by decide)))
  · simp [hc]

/-- The labels that occur out of all there are, in the order of preference. -/
def preferences (frequency : UInt8 → Nat) : List UInt8 :=
  (((List.range 256).map UInt8.ofNat).filter fun c => 0 < frequency c).mergeSort fun c d =>
    LabelCount.before ⟨c, frequency c⟩ ⟨d, frequency d⟩

/-- The table and its index, made from the frequencies alone. -/
def tabulate (frequency : UInt8 → Nat) : Filling := fill ((preferences frequency).take room)

theorem mem_preferences {frequency : UInt8 → Nat} {c : UInt8} : c ∈ preferences frequency ↔ 0 < frequency c := by
  rw [preferences, List.mem_mergeSort, List.mem_filter, decide_eq_true_eq]
  refine and_iff_right (List.mem_map.2 ⟨c.toNat, List.mem_range.2 c.toNat_lt, UInt8.ofNat_toNat⟩)

theorem nodup_preferences (frequency : UInt8 → Nat) : (preferences frequency).Nodup := by
  have hall : ((List.range 256).map UInt8.ofNat).Nodup := by
    refine List.Nodup.map_on ?_ List.nodup_range
    intro m hm n hn h
    have hsame := congrArg UInt8.toNat h
    rwa [UInt8.toNat_ofNat_of_lt' (List.mem_range.1 hm), UInt8.toNat_ofNat_of_lt' (List.mem_range.1 hn)] at hsame
  rw [preferences, (List.mergeSort_perm _ _).nodup_iff]
  exact hall.filter _

theorem pairwise_preferences (frequency : UInt8 → Nat) : (preferences frequency).Pairwise (Preferred frequency) := by
  have hsorted : (preferences frequency).Pairwise fun c d => LabelCount.before ⟨c, frequency c⟩ ⟨d, frequency d⟩ = true := by
    apply List.pairwise_mergeSort
    · exact fun c d e => LabelCount.before_trans _ _ _
    · exact fun c d => LabelCount.before_total _ _
  refine (hsorted.and (nodup_preferences frequency)).imp ?_
  rintro c d ⟨hbefore, hne⟩
  exact preferred_of_ne (LabelCount.before_iff.1 hbefore) hne

/-- There is one order of preference. -/
theorem preferences_eq (labels : List UInt8) : preferences labels.count = ranked labels := by
  have hperm : (preferences labels.count).Perm (ranked labels) := by
    refine (List.perm_ext_iff_of_nodup (nodup_preferences _) (nodup_ranked labels)).2 fun c => ?_
    rw [mem_preferences, mem_ranked]
    exact List.count_pos_iff
  refine hperm.eq_of_pairwise ?_ (pairwise_preferences _) (pairwise_ranked labels)
  intro c d _ _ hcd hdc
  rw [Preferred] at hcd hdc
  grind

theorem tabulate_eq (labels : List UInt8) : (tabulate labels.count).entries = (ofLabels labels).labels ∧
    ∀ c, ((tabulate labels.count).index c).toNat = (ofLabels labels).index c := by
  have hnodup : ((ranked labels).take room).Nodup := (nodup_ranked labels).sublist (List.take_sublist _ _)
  have htable : ofLabels labels = ⟨0 :: ((ranked labels).take room).reverse⟩ := by
    rw [ofLabels, ranked, List.map_take]
  rw [tabulate, preferences_eq, htable]
  exact fill_eq hnodup (List.length_take_le _ _)

/-- A table of the most frequent labels: behind an entry that stands for no label the more frequent ones come later, and of
equally frequent ones the smaller. Every label that has an entry is preferred to every label that has none. -/
structure Ranks (t : LabelTable) (occurring : Set UInt8) (frequency : UInt8 → Nat) : Prop where
  length_eq : t.labels.length = 1 + min 31 occurring.ncard
  index_pos_iff : ∀ c, 0 < t.index c ↔ c ∈ t.labels.tail
  getElem?_index : ∀ c, 0 < t.index c → t.labels[t.index c]? = some c
  nodup : t.labels.tail.Nodup
  occurs : ∀ c ∈ t.labels.tail, c ∈ occurring
  ascending : ∀ i j c d, 0 < i → i < j → t.labels[i]? = some c → t.labels[j]? = some d → Preferred frequency d c
  kept : ∀ c d, 0 < t.index c → t.index d = 0 → Preferred frequency c d

theorem index_pos_iff (t : LabelTable) (c : UInt8) : 0 < t.index c ↔ c ∈ t.labels.tail := by
  rw [index]
  split
  · rename_i i hi
    obtain ⟨hlt, hc, -⟩ := List.idxOf?_eq_some_iff.1 hi
    exact iff_of_true (Nat.succ_pos i) (hc ▸ List.getElem_mem hlt)
  · rename_i hnone
    exact iff_of_false (Nat.lt_irrefl 0) (List.idxOf?_eq_none_iff.1 hnone)

theorem tail_ofLabels (labels : List UInt8) : (ofLabels labels).labels.tail = ((ranked labels).take room).reverse := by
  rw [ofLabels, List.tail_cons, ranked, List.map_take]

theorem length_ranked (labels : List UInt8) : (ranked labels).length = {c | c ∈ labels}.ncard := by
  have hset : {c | c ∈ labels} = ((ranked labels).toFinset : Set UInt8) := by
    ext c
    simp [mem_ranked]
  rw [hset, Set.ncard_coe_finset, List.toFinset_card_of_nodup (nodup_ranked labels)]

theorem ranks_ofLabels (labels : List UInt8) : (ofLabels labels).Ranks {c | c ∈ labels} labels.count := by
  have htail := tail_ofLabels labels
  have hsplit : ((ranked labels).take room ++ (ranked labels).drop room).Pairwise (Preferred labels.count) := by
    rw [List.take_append_drop]
    exact pairwise_ranked labels
  obtain ⟨hkept, -, hleft⟩ := List.pairwise_append.1 hsplit
  have hmem (c : UInt8) : 0 < (ofLabels labels).index c ↔ c ∈ (ranked labels).take room := by
    rw [index_pos_iff, htail, List.mem_reverse]
  have hoccurs {c : UInt8} (hc : c ∈ (ranked labels).take room) : c ∈ labels :=
    (mem_ranked labels).1 (List.mem_of_mem_take hc)
  refine ⟨?_, index_pos_iff _, fun c => getElem?_index, ?_, ?_, ?_, ?_⟩
  · have hlength := congrArg List.length htail
    have hcons : (ofLabels labels).labels.length = (ofLabels labels).labels.tail.length + 1 := rfl
    rw [hcons, hlength, List.length_reverse, List.length_take, length_ranked, room, Nat.add_comm]
  · rw [htail]
    exact List.nodup_reverse.2 ((nodup_ranked labels).sublist (List.take_sublist _ _))
  · intro c hc
    rw [htail, List.mem_reverse] at hc
    exact hoccurs hc
  · intro i j c d hi hij hc hd
    obtain ⟨i, rfl⟩ := Nat.exists_eq_succ_of_ne_zero (Nat.ne_of_gt hi)
    obtain ⟨j, rfl⟩ := Nat.exists_eq_succ_of_ne_zero (show j ≠ 0 by omega)
    rw [Nat.succ_eq_add_one, ← List.getElem?_tail, htail] at hc hd
    obtain ⟨hi, rfl⟩ := List.getElem?_eq_some_iff.1 hc
    obtain ⟨hj, rfl⟩ := List.getElem?_eq_some_iff.1 hd
    exact List.pairwise_iff_getElem.1 (List.pairwise_reverse.2 hkept) i j hi hj (by omega)
  · intro c d hc hd
    rw [hmem] at hc
    have hnot : d ∉ (ranked labels).take room := by
      rw [← hmem]
      omega
    by_cases hoccurring : d ∈ labels
    · have hrest : d ∈ (ranked labels).drop room := by
        have hall := (mem_ranked labels).2 hoccurring
        rw [← List.take_append_drop room (ranked labels), List.mem_append] at hall
        exact hall.resolve_left hnot
      exact hleft c hc d hrest
    · left
      show labels.count d < labels.count c
      rw [List.count_eq_zero.2 hoccurring]
      exact List.count_pos_iff.2 (hoccurs hc)

end LabelTable

/-- What the table of an automaton holds, and that it can be made from the frequencies alone. -/
theorem Automaton.Readable.labels_ranked {A : Automaton} (hread : A.Readable) : ∃ states, A.survey = .ok states ∧
    A.Surveyed states ∧
    (LabelTable.ofLabels (A.graph.labels states)).Ranks
      {c | ∃ s, A.graph.Reachable s ∧ ∃ x ∈ A.graph.row s, x.label = c} (A.graph.frequency states) ∧
    (LabelTable.tabulate (A.graph.frequency states)).entries = (LabelTable.ofLabels (A.graph.labels states)).labels ∧
    ∀ c, ((LabelTable.tabulate (A.graph.frequency states)).index c).toNat =
      (LabelTable.ofLabels (A.graph.labels states)).index c := by
  obtain ⟨states, hsurvey, hstates⟩ := hread.survey
  have hset : {c | ∃ s, A.graph.Reachable s ∧ ∃ x ∈ A.graph.row s, x.label = c} = {c | c ∈ A.graph.labels states} := by
    ext c
    simp [Graph.labels, hstates.mem_iff]
  refine ⟨states, hsurvey, hstates, ?_⟩
  rw [hset, ← Graph.count_labels]
  exact ⟨LabelTable.ranks_ofLabels _, LabelTable.tabulate_eq _⟩

/-- One label on two arcs and one on a single one. -/
theorem Automaton.Readable.labels_ranked_twice : ∃ b states, Builder.build [[97, 97], [98]] = .ok b ∧
    b.automaton.survey = .ok states ∧ (LabelTable.ofLabels (b.automaton.graph.labels states)).labels = [0, 98, 97] ∧
    LabelTable.Preferred (b.automaton.graph.frequency states) 97 98 ∧
    (LabelTable.tabulate (b.automaton.graph.frequency states)).entries = [0, 98, 97] := by
  have hrun : (do
      let b ← (Builder.build [[97, 97], [98]]).toOption
      let states ← b.automaton.survey.toOption
      return (LabelTable.ofLabels (b.automaton.graph.labels states)).labels) = some [0, 98, 97] := by cbv
  simp only [Option.bind_eq_bind, Option.bind_eq_some_iff, toOption_eq_some, Option.pure_def, Option.some.injEq] at hrun
  obtain ⟨b, hb, states, hstates, htable⟩ := hrun
  obtain ⟨states', hstates', -, hranks, hentries, -⟩ := (Automaton.readable_of_survey hstates).labels_ranked
  obtain rfl := Except.ok.inj (hstates.symm.trans hstates')
  exact ⟨_, states, hb, hstates, htable, hranks.ascending 1 2 98 97 (by decide) (by decide) (by rw [htable]; rfl)
    (by rw [htable]; rfl), hentries.trans htable⟩

end WordAutomata
