import Mathlib
import WordAutomata.Proofs.Visits

namespace WordAutomata

open Std (TreeMap)

/-- The largest count that is stored. -/
def maxCount : Nat := 2 ^ 32 - 1

/-- How many sequences some arcs accept, given how many their targets accept. -/
def totalBelow (count : State → Nat) (ts : List Transition) : Nat :=
  (ts.map fun t => (if t.isFinal then 1 else 0) + t.target.elim 0 count).sum

theorem totalBelow_congr {count count' : State → Nat} {ts : List Transition}
    (h : ∀ t ∈ ts.filterMap Transition.target, count t = count' t) : totalBelow count ts = totalBelow count' ts := by
  rw [totalBelow, totalBelow]
  congr 1
  refine List.map_congr_left fun t ht => ?_
  cases hu : t.target with
  | none => rfl
  | some u => simp [h u (List.mem_filterMap.2 ⟨t, ht, hu⟩)]

theorem totalBelow_cons (count : State → Nat) (t : Transition) (ts : List Transition) :
    totalBelow count (t :: ts) = (if t.isFinal then 1 else 0) + t.target.elim 0 count + totalBelow count ts := rfl

theorem le_totalBelow (count : State → Nat) {ts : List Transition} {u : State}
    (h : u ∈ ts.filterMap Transition.target) : count u ≤ totalBelow count ts := by
  induction ts with
  | nil => simp at h
  | cons t ts ih =>
    rw [totalBelow_cons]
    cases hu : t.target with
    | none =>
      have := ih (by simpa [hu] using h)
      omega
    | some v =>
      rw [List.filterMap_cons_some hu, List.mem_cons] at h
      rcases h with rfl | h
      · rw [Option.elim_some]
        omega
      · have := ih h
        omega

section

variable {add : Nat → Nat → Read Nat} (keep : Nat → Nat) {counts : TreeMap State Nat}

/-- One arc adds to a count, as long as the way it is kept does not get into the way of additions up to the sum. -/
theorem countArc_eq {t : Transition} {n : Nat} (ht : ∀ u ∈ t.target, u ∈ counts)
    (hadd : ∀ m k, m + k ≤ n + ((if t.isFinal then 1 else 0) + t.target.elim 0 (counts.getD · 0)) →
      add (keep m) k = .ok (keep (m + k))) :
    countArc add counts (keep n) (t.isFinal, t.target) =
      .ok (keep (n + ((if t.isFinal then 1 else 0) + t.target.elim 0 (counts.getD · 0)))) := by
  obtain ⟨c, isFinal, target⟩ := t
  cases target with
  | none =>
    cases isFinal with
    | false => simp [countArc]
    | true =>
      have hone := hadd n 1 (by simp)
      simp [countArc, hone]
  | some u =>
    have hu : counts[u]? = some (counts.getD u 0) := TreeMap.getElem?_eq_some_getD (ht u rfl)
    cases isFinal with
    | false =>
      have hbelow := hadd n (counts.getD u 0) (by simp)
      simp [countArc, hu, hbelow]
    | true =>
      have hone := hadd n 1 (by simp only [ite_true, Option.elim_some]; omega)
      have hbelow := hadd (n + 1) (counts.getD u 0) (by simp only [ite_true, Option.elim_some]; omega)
      simp [countArc, hu, hone, hbelow, Nat.add_assoc]

theorem foldlM_countArc (ts : List Transition) {n : Nat} (hts : ∀ u ∈ ts.filterMap Transition.target, u ∈ counts)
    (hadd : ∀ m k, m + k ≤ n + totalBelow (counts.getD · 0) ts → add (keep m) k = .ok (keep (m + k))) :
    (ts.map fun t => (t.isFinal, t.target)).foldlM (countArc add counts) (keep n) =
      .ok (keep (n + totalBelow (counts.getD · 0) ts)) := by
  induction ts generalizing n with
  | nil => rfl
  | cons t ts ih =>
    have htarget : ∀ u ∈ t.target, u ∈ counts := by
      intro u hu
      exact hts u (List.mem_filterMap.2 ⟨t, by simp, hu⟩)
    have hrest : ∀ u ∈ ts.filterMap Transition.target, u ∈ counts := by
      intro u hu
      obtain ⟨v, hv, huv⟩ := List.mem_filterMap.1 hu
      exact hts u (List.mem_filterMap.2 ⟨v, List.mem_cons_of_mem t hv, huv⟩)
    rw [totalBelow_cons, ← Nat.add_assoc] at hadd ⊢
    rw [List.map_cons, List.foldlM_cons, countArc_eq keep htarget fun m k hle => hadd m k (by omega), ok_bind]
    exact ih hrest hadd

end

/-- Every state of some has its count, which comes from the counts of the states it leads to. -/
structure Counted (G : Graph) (counts : TreeMap State Nat) (states : State → Prop) : Prop where
  mem_iff : ∀ s, s ∈ counts ↔ states s
  count_eq : ∀ s, states s → counts.getD s 0 = min (totalBelow (counts.getD · 0) (G.row s)) maxCount

theorem Counted.insert {G : Graph} {counts : TreeMap State Nat} {done : State → Prop} (h : Counted G counts done)
    (hclosed : ∀ s, done s → ∀ t ∈ G.targets s, done t) {s : State} (hs : ¬done s) (htargets : ∀ t ∈ G.targets s, done t) :
    Counted G (counts.insert s (min (totalBelow (counts.getD · 0) (G.row s)) maxCount)) fun t => done t ∨ t = s := by
  have hkeep (n : Nat) (t : State) (ht : done t) : (counts.insert s n).getD t 0 = counts.getD t 0 := by
    have hne : s ≠ t := fun h => hs (h ▸ ht)
    simp [TreeMap.getD_insert, Std.LawfulEqCmp.compare_eq_iff_eq, hne]
  constructor
  · intro t
    rw [TreeMap.mem_insert, Std.LawfulEqCmp.compare_eq_iff_eq, h.mem_iff]
    grind
  · intro t ht
    rcases ht with ht | rfl
    · rw [hkeep _ t ht, h.count_eq t ht]
      congr 1
      exact totalBelow_congr fun u hu => (hkeep _ u (hclosed t ht u hu)).symm
    · rw [TreeMap.getD_insert_self]
      congr 1
      exact totalBelow_congr fun u hu => (hkeep _ u (htargets u hu)).symm

namespace Automaton

variable {A : Automaton}

theorem countAlong_counted (hread : A.Readable) {order : List State} {done : State → Prop}
    (horder : A.graph.ChildrenFirst done order) (hreach : ∀ s ∈ order, A.graph.Reachable s) {counts : TreeMap State Nat}
    (h : Counted A.graph counts done) (hclosed : ∀ s, done s → ∀ t ∈ A.graph.targets s, done t) :
    ∃ counts', order.foldlM (fun counts s => do
        return counts.insert s (← (← A.branches s).foldlM (countArc addSaturating counts) 0)) counts = .ok counts' ∧
      Counted A.graph counts' fun s => done s ∨ s ∈ order := by
  -- When the turn of a state comes, those that its arcs lead to have been counted, and stay so.
  induction order generalizing done counts with
  | nil => exact ⟨counts, rfl, by simpa using h⟩
  | cons s order ih =>
    obtain ⟨hs, htargets, horder⟩ := horder
    have hadd (m k : Nat) : addSaturating (min m maxCount) k = .ok (min (m + k) maxCount) := by
      show Except.ok (min (min m maxCount + k) maxCount) = _
      congr 1
      omega
    have hcount := foldlM_countArc (fun n => min n maxCount) (A.graph.row s) (n := 0)
      (fun u hu => (h.mem_iff u).2 (htargets u hu)) fun m k _ => hadd m k
    obtain ⟨counts', heq, h'⟩ := ih horder (fun t ht => hreach t (List.mem_cons_of_mem s ht)) (h.insert hclosed hs htargets)
      (by
        intro t ht u hu
        rcases ht with ht | rfl
        · exact .inl (hclosed t ht u hu)
        · exact .inl (htargets u hu))
    refine ⟨counts', ?_, ?_⟩
    · rw [Nat.zero_add, Nat.zero_min] at hcount
      simpa [hread.branches (hreach s (by simp)), hcount] using heq
    · simpa [or_assoc] using h'

theorem Readable.counts (hread : A.Readable) (hacyclic : A.graph.Acyclic) :
    ∃ counts, A.counts = .ok counts ∧ Counted A.graph counts A.graph.Reachable := by
  obtain ⟨order, heq, horder, -, hfirst⟩ := hread.postorder
  obtain ⟨counts, hcounts, h⟩ := countAlong_counted hread (hfirst hacyclic) (fun s hs => (horder.mem_iff s).1 hs)
    (⟨by simp, by simp⟩ : Counted A.graph ∅ fun _ => False) (by simp)
  refine ⟨counts, ?_, ?_⟩
  · simpa [Automaton.counts, heq, Readout.all, countAlong] using hcounts
  · simpa [horder.mem_iff] using h

end Automaton

namespace Counted

variable {G : Graph} {counts : TreeMap State Nat} {states : State → Prop} (h : Counted G counts states)

include h

theorem getElem? {s : State} (hs : states s) : counts[s]? = some (counts.getD s 0) :=
  TreeMap.getElem?_eq_some_getD ((h.mem_iff s).2 hs)

theorem le_maxCount (s : State) : counts.getD s 0 ≤ maxCount := by
  by_cases hs : s ∈ counts
  · rw [h.count_eq s ((h.mem_iff s).1 hs)]
    exact Nat.min_le_right _ _
  · rw [TreeMap.getD_eq_fallback hs]
    exact Nat.zero_le _

end Counted

/-- No state accepts more sequences than the root does. -/
theorem Counted.le_root {G : Graph} {counts : TreeMap State Nat} (h : Counted G counts G.Reachable) {r s : State}
    (hr : G.root = some r) (hs : G.Reachable s) : counts.getD s 0 ≤ counts.getD r 0 := by
  induction hs with
  | @root r' hr' =>
    obtain rfl : r = r' := by simpa using hr.symm.trans hr'
    exact Nat.le_refl _
  | @step s t hs ht ih =>
    refine Nat.le_trans ?_ ih
    rw [h.count_eq s hs]
    exact Nat.le_min.2 ⟨le_totalBelow (counts.getD · 0) ht, h.le_maxCount t⟩

end WordAutomata
