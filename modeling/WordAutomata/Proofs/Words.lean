import Mathlib.Data.List.Basic
import Mathlib.Data.Nat.Init
import WordAutomata.Proofs.Rows
import WordAutomata.Words

namespace WordAutomata

/-- The words of a transition, given those of the states. -/
def Transition.words (below : State → List Word) (t : Transition) : List Word :=
  (if t.isFinal then [[t.label]] else []) ++ (t.target.elim [] below).map (t.label :: ·)

theorem Transition.words_congr {below below' : State → List Word} {t : Transition}
    (h : ∀ s ∈ t.target, below s = below' s) : t.words below = t.words below' := by
  cases ht : t.target with
  | none => simp [words, ht]
  | some s =>
    have hs := h s ht
    simp [words, ht, hs]

namespace Graph

variable {G : Graph}

/-- The words spelled from a state along paths of at most so many arcs, those of an arc before those of the next. -/
def spelled (G : Graph) : Nat → State → List Word
  | 0, _ => []
  | depth + 1, s => (G.row s).flatMap (Transition.words (spelled G depth))

/-- Every path from a state ends after at most so many arcs. -/
def Shallow (G : Graph) : Nat → State → Prop
  | 0, _ => False
  | depth + 1, s => ∀ t ∈ G.targets s, Shallow G depth t

theorem mem_targets {s u : State} : u ∈ G.targets s ↔ ∃ t ∈ G.row s, t.target = some u := List.mem_filterMap

theorem nil_notMem_spelled (depth : Nat) (s : State) : [] ∉ G.spelled depth s := by
  cases depth with
  | zero => simp [spelled]
  | succ depth =>
    intro hmem
    obtain ⟨t, -, ht⟩ := List.mem_flatMap.1 hmem
    cases hf : t.isFinal <;> simp [Transition.words, hf] at ht

theorem Shallow.succ {depth : Nat} {s : State} (h : G.Shallow depth s) : G.Shallow (depth + 1) s := by
  induction depth generalizing s with
  | zero => exact h.elim
  | succ depth ih => exact fun t ht => ih (h t ht)

/-- No depth beyond the length of all paths adds a word. -/
theorem spelled_succ {depth : Nat} {s : State} (h : G.Shallow depth s) :
    G.spelled (depth + 1) s = G.spelled depth s := by
  induction depth generalizing s with
  | zero => exact h.elim
  | succ depth ih =>
    rw [spelled, spelled]
    refine List.flatMap_congr fun t ht => Transition.words_congr fun u hu => ?_
    exact ih (h u (mem_targets.2 ⟨t, ht, hu⟩))

theorem spelled_eq {depth : Nat} {s : State} (h : G.Shallow depth s) :
    G.spelled depth s = (G.row s).flatMap (Transition.words (G.spelled depth)) := (spelled_succ h).symm

theorem Shallow.mono {n m : Nat} (hle : n ≤ m) {s : State} (h : G.Shallow n s) :
    G.Shallow m s ∧ G.spelled m s = G.spelled n s := by
  induction m, hle using Nat.le_induction with
  | base => exact ⟨h, rfl⟩
  | succ m _ ih => exact ⟨ih.1.succ, (spelled_succ ih.1).trans ih.2⟩

end Graph

/-- Some states can be read, and whatever they lead to is among them. -/
def Automaton.Legible (A : Automaton) (P : State → Prop) : Prop :=
  ∀ s, P s → (∃ ts, A.row s = .ok ts) ∧ ∀ t ∈ A.graph.targets s, P t

theorem Automaton.Legible.exists_firstArc {A : Automaton} {P : State → Prop} (h : A.Legible P) {s : State} (hs : P s) :
    ∃ a, A.firstArc s = .ok a ∧ A.Carries a (A.graph.row s) := by
  obtain ⟨ts, hts⟩ := (h s hs).1
  rw [graph_row hts]
  exact row_eq_ok.1 hts

theorem Automaton.enter_eq {A : Automaton} {a : Arc} {t : Transition} (h : A.transition a = .ok t) {below : Option Arc}
    (hbelow : t.target.elim (.ok none) (fun s => some <$> A.firstArc s) = (.ok below : Read (Option Arc))) :
    A.enter a = .ok (t.label, t.isFinal, below) := by
  obtain ⟨hlabel, hfinal, htarget⟩ := transition_eq_ok.1 h
  rw [enter, hlabel, htarget, hfinal]
  cases hs : t.target with
  | none =>
    rw [hs] at hbelow
    cases hbelow
    rfl
  | some s =>
    rw [hs, Option.elim_some] at hbelow
    simp only [ok_bind, hbelow]
    rfl

namespace Enumeration

/-- What is ahead of each cursor, the deepest first. No path from there has more than `limit` arcs, those that lead to the
cursor included. -/
inductive Cursors (A : Automaton) (P : State → Prop) (limit : Nat) : Array (Option Arc) → List (List Transition) → Prop
  | nil : Cursors A P limit #[] []
  | push {cursors : Array (Option Arc)} {tss : List (List Transition)} {cursor : Option Arc} {ts : List Transition} :
      Cursors A P limit cursors tss → A.CarriesOn cursor ts → cursors.size < limit →
      (∀ t ∈ ts, ∀ s ∈ t.target, P s ∧ A.graph.Shallow (limit - (cursors.size + 1)) s) →
      Cursors A P limit (cursors.push cursor) (ts :: tss)

/-- The words of the transitions ahead, behind the labels that lead to their depth. -/
def remaining (below : State → List Word) (labels : Word) : List (List Transition) → List Word
  | [] => []
  | ts :: tss => (ts.flatMap (Transition.words below)).map (labels.take tss.length ++ ·) ++ remaining below labels tss

/-- Labels deeper than all cursors do not matter. -/
theorem remaining_congr (below : State → List Word) {labels labels' : Word} {tss : List (List Transition)}
    (h : labels.take tss.length = labels'.take tss.length) : remaining below labels tss = remaining below labels' tss := by
  induction tss with
  | nil => rfl
  | cons ts tss ih =>
    have htake : labels.take tss.length = labels'.take tss.length := by
      have := congrArg (List.take tss.length) h
      simpa [List.take_take] using this
    rw [remaining, remaining, htake, ih htake]

variable {A : Automaton} {P : State → Prop} {limit : Nat}

theorem Cursors.size_eq {cursors : Array (Option Arc)} {tss : List (List Transition)} (h : Cursors A P limit cursors tss) :
    cursors.size = tss.length := by
  induction h with
  | nil => rfl
  | push _ _ _ _ ih => rw [Array.size_push, List.length_cons, ih]

theorem Cursors.of_push {cursors : Array (Option Arc)} {cursor : Option Arc} {tss : List (List Transition)}
    (h : Cursors A P limit (cursors.push cursor) tss) : ∃ ts tss', tss = ts :: tss' ∧ Cursors A P limit cursors tss' ∧
      A.CarriesOn cursor ts ∧ cursors.size < limit ∧
      ∀ t ∈ ts, ∀ s ∈ t.target, P s ∧ A.graph.Shallow (limit - (cursors.size + 1)) s := by
  generalize hpush : cursors.push cursor = all at h
  cases h with
  | nil => simp at hpush
  | push hcursors hcursor hsize hbelow =>
    obtain ⟨rfl, rfl⟩ := Array.push_eq_push.1 hpush
    exact ⟨_, _, rfl, hcursors, hcursor, hsize, hbelow⟩

/-- The words of an arc come first, the one that ends with it before those that go on; the labels are cut back for them. -/
theorem remaining_cons (below : State → List Word) {labels cut : Word} {t : Transition} (ts : List Transition)
    {tss : List (List Transition)} (hlength : tss.length ≤ labels.length)
    (hcut : cut = labels.take tss.length ++ [t.label]) : remaining below labels ((t :: ts) :: tss) =
      (if t.isFinal then [cut] else []) ++
        ((t.target.elim [] below).map (cut ++ ·) ++ remaining below cut (ts :: tss)) := by
  have hkeep : cut.take tss.length = labels.take tss.length := by
    rw [hcut]
    exact List.take_left' (List.length_take_of_le hlength)
  rw [remaining, remaining, hkeep, remaining_congr below hkeep, hcut]
  cases hf : t.isFinal <;> simp [Transition.words, hf]

/-- A state as a depth of its own. -/
theorem Cursors.push_row (hA : A.Legible P) {cursors : Array (Option Arc)} {tss : List (List Transition)}
    (h : Cursors A P limit cursors tss) {s : State} (hs : P s) (hshallow : A.graph.Shallow (limit - cursors.size) s) {b : Arc}
    (hb : A.Carries b (A.graph.row s)) : Cursors A P limit (cursors.push (some b)) (A.graph.row s :: tss) := by
  have hclosed := (hA s hs).2
  cases hroom : limit - cursors.size with
  | zero =>
    rw [hroom] at hshallow
    exact hshallow.elim
  | succ k =>
    rw [hroom] at hshallow
    have hk : limit - (cursors.size + 1) = k := by omega
    refine .push h hb (by omega) fun t ht u hu => ?_
    have hmem : u ∈ A.graph.targets s := Graph.mem_targets.2 ⟨t, ht, hu⟩
    rw [hk]
    exact ⟨hclosed u hmem, hshallow u hmem⟩

theorem remaining_row {s : State} (hshallow : A.graph.Shallow limit s) {labels : Word} {tss : List (List Transition)}
    (hlength : labels.length = tss.length) : remaining (A.graph.spelled limit) labels (A.graph.row s :: tss) =
      (A.graph.spelled limit s).map (labels ++ ·) ++ remaining (A.graph.spelled limit) labels tss := by
  rw [remaining, ← Graph.spelled_eq hshallow, ← hlength, List.take_length]

theorem take_eq (labels : Bytes) (cursors : Array (Option Arc)) {a : Arc} {next below : Option Arc} {t : Transition}
    (hnext : A.nextArc a = .ok next) (ht : A.transition a = .ok t)
    (hbelow : t.target.elim (.ok none) (fun s => some <$> A.firstArc s) = (.ok below : Read (Option Arc))) :
    take A labels cursors a = .ok (t.isFinal, ⟨(labels.shrink cursors.size).push t.label,
      below.elim (cursors.push next) fun b => (cursors.push next).push (some b)⟩) := by
  rw [take, hnext, Automaton.enter_eq ht hbelow]
  rfl

/-- An enumeration has still to yield some words. -/
def Yields (A : Automaton) (P : State → Prop) (limit : Nat) (e : Enumeration) (ws : List Word) : Prop :=
  ∃ tss, Cursors A P limit e.cursors tss ∧ tss.length ≤ e.labels.size + 1 ∧
    remaining (A.graph.spelled limit) e.labels.toList tss = ws

section

variable {labels : Bytes} {cursors : Array (Option Arc)} {ws : List Word}

/-- At first all words of the state are left. -/
theorem yields_start (hA : A.Legible P) {s : State} (hs : P s) {depth : Nat} (hshallow : A.graph.Shallow depth s)
    (hdepth : depth ≤ limit) {a : Arc} (ha : A.Carries a (A.graph.row s)) :
    Yields A P limit ⟨#[], #[some a]⟩ (A.graph.spelled depth s) := by
  obtain ⟨hdeep, hspelled⟩ := hshallow.mono hdepth
  have hremaining : remaining (A.graph.spelled limit) [] [A.graph.row s] = _ := remaining_row hdeep rfl
  rw [← hspelled]
  exact ⟨[A.graph.row s], .push_row hA .nil hs hdeep ha, Nat.le_refl _, by simpa [remaining] using hremaining⟩

/-- Nothing is left at a depth that is used up. -/
theorem Yields.pop (h : Yields A P limit ⟨labels, cursors.push none⟩ ws) : Yields A P limit ⟨labels, cursors⟩ ws := by
  obtain ⟨tss, htss, hlength, hws⟩ := h
  obtain ⟨ts, tss, rfl, hcursors, hnone, -, -⟩ := htss.of_push
  obtain rfl : ts = [] := hnone
  exact ⟨tss, hcursors, Nat.le_of_succ_le hlength, by simpa [remaining] using hws⟩

/-- Taking an arc yields the word that ends with it, if there is one, and leaves the others of what was left before. -/
theorem Yields.take_cases (hA : A.Legible P) {a : Arc} (h : Yields A P limit ⟨labels, cursors.push (some a)⟩ ws) :
    cursors.size < limit ∧ ∃ isFinal e ws', take A labels cursors a = .ok (isFinal, e) ∧ Yields A P limit e ws' ∧
      ws = (if isFinal then [e.labels.toList] else []) ++ ws' := by
  obtain ⟨tss, htss, hlength, rfl⟩ := h
  obtain ⟨ts, tss, rfl, hcursors, ha, hlimit, hbelow⟩ := htss.of_push
  obtain ⟨t, ts, next, rfl, hnext, ht, hrest⟩ := Automaton.Carries.step ha
  have hsize := hcursors.size_eq
  have hlabels : tss.length ≤ labels.toList.length := Nat.le_of_succ_le_succ hlength
  obtain ⟨cut, hcut⟩ : ∃ cut, cut = (labels.shrink cursors.size).push t.label := ⟨_, rfl⟩
  have hcut_eq : cut.toList = labels.toList.take tss.length ++ [t.label] := by simp [hcut, hsize]
  have hcut_length : cut.toList.length = tss.length + 1 := by
    rw [hcut_eq, List.length_append, List.length_take_of_le hlabels, List.length_singleton]
  have hcursors' : Cursors A P limit (cursors.push next) (ts :: tss) :=
    .push hcursors hrest hlimit fun u hu => hbelow u (List.mem_cons_of_mem t hu)
  have hremaining := remaining_cons (A.graph.spelled limit) ts hlabels hcut_eq
  refine ⟨hlimit, t.isFinal, ?_⟩
  cases htarget : t.target with
  | none =>
    have hend : t.target.elim (.ok none) (fun s => some <$> A.firstArc s) = (.ok none : Read (Option Arc)) := by
      rw [htarget]
      rfl
    have htake := take_eq labels cursors hnext ht hend
    refine ⟨_, _, htake, ⟨ts :: tss, hcursors', ?_, rfl⟩, ?_⟩
    · rw [← hcut, ← Array.length_toList, hcut_length, List.length_cons]
      omega
    · rw [← hcut, hremaining, htarget]
      rfl
  | some s =>
    obtain ⟨hs, hshallow⟩ := hbelow t (by simp) s htarget
    obtain ⟨b, hb, hrow⟩ := hA.exists_firstArc hs
    have hgo : t.target.elim (.ok none) (fun s => some <$> A.firstArc s) = (.ok (some b) : Read (Option Arc)) := by
      rw [htarget, Option.elim_some, hb]
      rfl
    have htake := take_eq labels cursors hnext ht hgo
    have hlimit' : limit - (cursors.push next).size = limit - (cursors.size + 1) := by rw [Array.size_push]
    have hshallow' := hshallow.mono (Nat.sub_le limit (cursors.size + 1))
    refine ⟨_, _, htake, ⟨_, hcursors'.push_row hA hs (hlimit' ▸ hshallow) hrow, ?_, rfl⟩, ?_⟩
    · refine Nat.le_of_eq ?_
      rw [← hcut, ← Array.length_toList, hcut_length, List.length_cons, List.length_cons]
    · rw [← hcut, hremaining, htarget, remaining_row hshallow'.1 (by rw [hcut_length, List.length_cons])]
      rfl

/-- The next word to be yielded is the first of those that are left; when none is left, none is yielded. -/
theorem Yields.next_cases (hA : A.Legible P) {e : Enumeration} (h : Yields A P limit e ws) :
    (∃ e', next A limit e = .ok (none, e') ∧ Yields A P limit e' [] ∧ ws = []) ∨
      ∃ w e' ws', next A limit e = .ok (some w, e') ∧ Yields A P limit e' ws' ∧ ws = w :: ws' := by
  fun_induction next A limit e generalizing ws with
  | case1 labels cursors hback =>
    obtain rfl : cursors = #[] := Array.back?_eq_none_iff.1 hback
    obtain ⟨tss, htss, -, rfl⟩ := h
    obtain rfl : tss = [] := List.length_eq_zero_iff.1 htss.size_eq.symm
    exact .inl ⟨_, rfl, ⟨[], .nil, Nat.zero_le _, rfl⟩, rfl⟩
  | case2 labels cursors hback hlt ih =>
    obtain ⟨above, rfl⟩ := Array.back?_eq_some_iff.1 hback
    rw [Array.pop_push] at ih ⊢
    exact ih h.pop
  | case3 labels cursors a hback hlimit =>
    obtain ⟨above, rfl⟩ := Array.back?_eq_some_iff.1 hback
    have := (h.take_cases hA).1
    rw [Array.size_push] at hlimit
    omega
  | case4 labels cursors a hback hlimit f htake =>
    obtain ⟨above, rfl⟩ := Array.back?_eq_some_iff.1 hback
    obtain ⟨-, isFinal, e, ws', htake', -⟩ := h.take_cases hA
    rw [Array.pop_push, htake'] at htake
    cases htake
  | case5 labels cursors a hback hlimit e htake =>
    obtain ⟨above, rfl⟩ := Array.back?_eq_some_iff.1 hback
    obtain ⟨-, isFinal, e', ws', htake', hrest, rfl⟩ := h.take_cases hA
    rw [Array.pop_push, htake'] at htake
    cases htake
    exact .inr ⟨_, _, ws', rfl, hrest, rfl⟩
  | case6 labels cursors a hback hlimit e htake hlt ih =>
    obtain ⟨above, rfl⟩ := Array.back?_eq_some_iff.1 hback
    obtain ⟨-, isFinal, e', ws', htake', hrest, rfl⟩ := h.take_cases hA
    rw [Array.pop_push, htake'] at htake
    cases htake
    exact ih hrest

theorem words_of_none {e e' : Enumeration} (h : next A limit e = .ok (none, e')) (wanted : Option Nat) :
    words A limit wanted e = .done := by
  rw [words]
  split <;> simp_all

theorem words_of_some {e e' : Enumeration} {w : Word} (h : next A limit e = .ok (some w, e')) (wanted : Option Nat) :
    words A limit wanted e = (Readout.one w).andThen wanted fun wanted => words A limit wanted e' := by
  rw [words]
  split <;> simp_all

/-- What is left is yielded in this order, and then the enumeration ends. -/
theorem Yields.words_eq (hA : A.Legible P) {e : Enumeration} (h : Yields A P limit e ws) {wanted : Option Nat}
    (hwanted : wanted ≠ some 0) : words A limit wanted e = .upTo wanted ws := by
  -- The induction is on what is still to come. How many cursors are used up between two words makes no difference.
  induction ws generalizing e wanted with
  | nil =>
    rcases h.next_cases hA with ⟨e', hnext, -⟩ | ⟨w, e', ws', -, -, hws⟩
    · rw [words_of_none hnext, Readout.done_eq_upTo wanted]
    · cases hws
  | cons w ws ih =>
    rcases h.next_cases hA with ⟨e', -, -, hws⟩ | ⟨v, e', ws', hnext, hrest, hws⟩
    · cases hws
    · obtain ⟨rfl, rfl⟩ := List.cons_eq_cons.1 hws
      rw [words_of_some hnext, Readout.one_eq_upTo hwanted, Readout.upTo_andThen hwanted fun _ => ih hrest]
      rfl

end

end Enumeration

theorem Automaton.Readable.legible {A : Automaton} (h : A.Readable) : A.Legible A.graph.Reachable :=
  fun _ hs => ⟨h.row_ok hs, fun _ ht => .step hs ht⟩

/-- A state of bounded depth spells its words one after the other, and then no more. -/
theorem Automaton.Legible.wordsFrom_eq {A : Automaton} {P : State → Prop} (hA : A.Legible P) {s : State} (hs : P s)
    {depth : Nat} (hshallow : A.graph.Shallow depth s) {wanted : Option Nat} (hdepth : depth ≤ depthFor wanted) :
    A.wordsFrom s wanted = .upTo wanted (A.graph.spelled depth s) := by
  obtain ⟨a, ha, hcarries⟩ := hA.exists_firstArc hs
  have hyields := Enumeration.yields_start hA hs hshallow hdepth hcarries
  rw [wordsFrom, ha]
  by_cases hnone : wanted = some 0
  · subst hnone
    rfl
  · rw [← hyields.words_eq hA hnone]
    exact Readout.done_andThen hnone _

end WordAutomata
