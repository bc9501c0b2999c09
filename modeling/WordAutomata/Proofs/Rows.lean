import WordAutomata.Proofs.Reading
import WordAutomata.Tally
import WordAutomata.Walk

namespace WordAutomata

namespace Automaton

variable {A : Automaton}

/-- From an arc on, the arcs of its state read as some transitions. -/
inductive Carries (A : Automaton) : Arc → List Transition → Prop
  | last {a : Arc} {t : Transition} : A.nextArc a = .ok none → A.transition a = .ok t → Carries A a [t]
  | more {a b : Arc} {t : Transition} {ts : List Transition} : A.nextArc a = .ok (some b) → A.transition a = .ok t →
      Carries A b ts → Carries A a (t :: ts)

/-- From a cursor on, the arcs that are left of its state read as some transitions. -/
def CarriesOn (A : Automaton) : Option Arc → List Transition → Prop
  | none, ts => ts = []
  | some a, ts => A.Carries a ts

theorem Carries.step {a : Arc} {ts : List Transition} (h : A.Carries a ts) :
    ∃ t ts' next, ts = t :: ts' ∧ A.nextArc a = .ok next ∧ A.transition a = .ok t ∧ A.CarriesOn next ts' := by
  cases h with
  | @last a t hn ht => exact ⟨t, [], none, rfl, hn, ht, rfl⟩
  | @more a b t ts hn ht hb => exact ⟨t, ts, some b, rfl, hn, ht, hb⟩

theorem transition_eq_ok {a : Arc} {t : Transition} :
    A.transition a = .ok t ↔ A.label a = .ok t.label ∧ A.isFinal a = .ok t.isFinal ∧ A.target a = .ok t.target := by
  obtain ⟨c, f, s⟩ := t
  cases hl : A.label a <;> cases hf : A.isFinal a <;> cases ht : A.target a <;> simp [transition, hl, hf, ht]

theorem arcsFrom_last {a : Arc} (h : A.nextArc a = .ok none) : A.arcsFrom a = ⟨[a], none⟩ := by
  rw [arcsFrom]
  split <;> simp_all

theorem arcsFrom_more {a b : Arc} (h : A.nextArc a = .ok (some b)) : A.arcsFrom a = (A.arcsFrom b).cons a := by
  rw [arcsFrom]
  split <;> simp_all

theorem along_last {σ α : Type} {look : σ → Arc → Read (σ ⊕ α)} {x : σ} {a : Arc} {y : σ ⊕ α}
    (hnext : A.nextArc a = .ok none) (hlook : look x a = .ok y) :
    A.along look x a = .ok (y.elim (fun _ => none) some) := by
  rw [along]
  split
  · simp_all
  · rename_i next hnext'
    obtain rfl : none = next := Except.ok.inj (hnext.symm.trans hnext')
    simp only [hlook]
    cases y <;> rfl

theorem along_more {σ α : Type} {look : σ → Arc → Read (σ ⊕ α)} {x : σ} {a b : Arc} {y : σ ⊕ α}
    (hnext : A.nextArc a = .ok (some b)) (hlook : look x a = .ok y) :
    A.along look x a = y.elim (fun x' => A.along look x' b) fun z => .ok (some z) := by
  rw [along]
  split
  · simp_all
  · rename_i next hnext'
    obtain rfl : some b = next := Except.ok.inj (hnext.symm.trans hnext')
    simp only [hlook]
    cases y <;> rfl

theorem Carries.arcs {a : Arc} {ts : List Transition} (h : A.Carries a ts) :
    ∃ as, A.arcsFrom a = ⟨as, none⟩ ∧ as.mapM A.transition = .ok ts ∧ as.mapM A.target = .ok (ts.map Transition.target) ∧
      as.mapM (fun a => return (← A.isFinal a, ← A.target a)) = .ok (ts.map fun t => (t.isFinal, t.target)) := by
  induction h with
  | @last a t hn ht =>
    obtain ⟨-, hf, hs⟩ := transition_eq_ok.1 ht
    exact ⟨[a], arcsFrom_last hn, by simp [ht], by simp [hs], by simp [hf, hs]⟩
  | @more a b t ts hn ht _ ih =>
    obtain ⟨as, harcs, hts, htargets, hbranches⟩ := ih
    obtain ⟨-, hf, hs⟩ := transition_eq_ok.1 ht
    refine ⟨a :: as, by rw [arcsFrom_more hn, harcs]; rfl, by simp [ht, hts], by simp [hs, htargets], ?_⟩
    rw [List.mapM_cons, hbranches]
    simp [hf, hs]

theorem carries_of_arcsFrom {a : Arc} {as : List Arc} {ts : List Transition} (ha : A.arcsFrom a = ⟨as, none⟩)
    (ht : as.mapM A.transition = .ok ts) : A.Carries a ts := by
  fun_induction A.arcsFrom a generalizing as ts with
  | case1 => simp [Readout.fail] at ha
  | case2 a hn =>
    simp only [Readout.mk.injEq, and_true] at ha
    subst ha
    obtain ⟨t, ht, h⟩ := bind_eq_ok.1 (List.mapM_cons.symm.trans ht)
    simp only [List.mapM_nil, pure_eq_ok, ok_bind, Except.ok.injEq] at h
    exact h ▸ .last hn ht
  | case3 a b hn _ ih =>
    simp only [Readout.cons, Readout.mk.injEq] at ha
    obtain ⟨rfl, hfault⟩ := ha
    obtain ⟨t, ht, h⟩ := bind_eq_ok.1 (List.mapM_cons.symm.trans ht)
    obtain ⟨ts, hts, h⟩ := bind_eq_ok.1 h
    injection h with h
    exact h ▸ .more hn ht (ih (by rw [← hfault]) hts)

theorem row_eq_ok {s : State} {ts : List Transition} :
    A.row s = .ok ts ↔ ∃ a, A.firstArc s = .ok a ∧ A.Carries a ts := by
  constructor
  · intro h
    obtain ⟨as, has, h⟩ := bind_eq_ok.1 h
    rw [Readout.all_eq_ok, arcs] at has
    cases ha : A.firstArc s with
    | error f => simp [ha, Readout.fail] at has
    | ok a => exact ⟨a, rfl, carries_of_arcsFrom (by simpa [ha] using has) h⟩
  · intro ⟨a, ha, h⟩
    obtain ⟨as, has, hts, -⟩ := h.arcs
    simp [row, arcs, ha, has, Readout.all, hts]

theorem Carries.ne_nil {a : Arc} {ts : List Transition} (h : A.Carries a ts) : ts ≠ [] := by
  cases h <;> simp

theorem targets_of_row {s : State} {ts : List Transition} (h : A.row s = .ok ts) :
    A.targets s = .ok (ts.filterMap Transition.target) := by
  obtain ⟨a, ha, h⟩ := row_eq_ok.1 h
  obtain ⟨as, has, -, htargets, -⟩ := h.arcs
  have hfilter : (ts.map Transition.target).filterMap id = ts.filterMap Transition.target := by
    rw [List.filterMap_map]
    rfl
  rw [← hfilter]
  simp [targets, arcs, ha, has, Readout.all, htargets]

theorem branches_of_row {s : State} {ts : List Transition} (h : A.row s = .ok ts) :
    A.branches s = .ok (ts.map fun t => (t.isFinal, t.target)) := by
  obtain ⟨a, ha, h⟩ := row_eq_ok.1 h
  obtain ⟨as, has, -, -, hbranches⟩ := h.arcs
  simp only [branches, arcs, ha, has, Readout.all, ok_bind]
  exact hbranches

/-- The root and everything that a path from it leads to can be read. -/
structure Readable (A : Automaton) : Prop where
  root_ok : ∃ r, A.root = .ok r
  row_ok : ∀ {s : State}, A.graph.Reachable s → ∃ ts, A.row s = .ok ts

theorem graph_root {r : Option State} (h : A.root = .ok r) : A.graph.root = r := by
  simp [graph, h]

theorem graph_row {s : State} {ts : List Transition} (h : A.row s = .ok ts) : A.graph.row s = ts := by
  simp [graph, h]

namespace Readable

variable (h : A.Readable)

include h

theorem root : A.root = .ok A.graph.root := by
  obtain ⟨r, hr⟩ := h.root_ok
  rw [hr, graph_root hr]

variable {s : State} (hs : A.graph.Reachable s)

include hs

theorem row : A.row s = .ok (A.graph.row s) := by
  obtain ⟨ts, hts⟩ := h.row_ok hs
  rw [hts, graph_row hts]

theorem targets : A.targets s = .ok (A.graph.targets s) := targets_of_row (h.row hs)

theorem branches : A.branches s = .ok ((A.graph.row s).map fun t => (t.isFinal, t.target)) := branches_of_row (h.row hs)

end Readable

end Automaton

end WordAutomata
