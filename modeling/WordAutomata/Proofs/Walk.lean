import WordAutomata.Proofs.Rows

namespace WordAutomata

open Std (TreeSet)

theorem contains_insert_iff {visited : TreeSet State} {s t : State} :
    (visited.insert s).contains t = true ↔ s = t ∨ visited.contains t = true := by
  rw [TreeSet.contains_insert, Bool.or_eq_true, beq_iff_eq, Std.LawfulEqCmp.compare_eq_iff_eq]

/-- What a walk over the states on a stack finds, if all of them and whatever they lead to can be read. -/
structure Explored (next : State → List State) (P : State → Prop) (visited : TreeSet State) (stack : List State)
    (order : List State) : Prop where
  nodup : order.Nodup
  sound : ∀ s ∈ order, P s ∧ ¬visited.contains s
  complete : ∀ s ∈ stack, visited.contains s ∨ s ∈ order
  closed : ∀ s ∈ order, ∀ t ∈ next s, visited.contains t ∨ t ∈ order
  /-- A state that does not come from the stack comes from one in front of it. -/
  behind : ∀ front s rest, order = front ++ s :: rest → s ∈ stack ∨ ∃ t ∈ front, s ∈ next t
  /-- The last state put on the stack comes first. -/
  head : ∀ s ∈ stack.head?, ¬visited.contains s → order.head? = some s

namespace Explored

variable {next : State → List State} {P : State → Prop} {visited : TreeSet State} {s : State} {stack order : List State}

/-- A state that has been met before is passed over. -/
theorem pass_over (hs : visited.contains s) (h : Explored next P visited stack order) :
    Explored next P visited (s :: stack) order := by
  refine ⟨h.nodup, h.sound, ?_, h.closed, ?_, ?_⟩
  · intro t ht
    rcases List.mem_cons.1 ht with rfl | ht
    · exact .inl hs
    · exact h.complete t ht
  · intro front t rest hsplit
    exact (h.behind front t rest hsplit).imp_left (List.mem_cons_of_mem s)
  · intro t ht hnot
    obtain rfl : s = t := by simpa using ht
    exact absurd hs hnot

/-- A new state is met, and what it leads to is put on the stack. -/
theorem meet (hs : ¬visited.contains s) (hP : P s)
    (h : Explored next P (visited.insert s) ((next s).reverse ++ stack) order) :
    Explored next P visited (s :: stack) (s :: order) := by
  have hnot (t : State) (ht : ¬(visited.insert s).contains t) : s ≠ t ∧ ¬visited.contains t := by
    rw [contains_insert_iff] at ht
    exact not_or.1 ht
  have hmem (t : State) (ht : (visited.insert s).contains t ∨ t ∈ order) : visited.contains t ∨ t ∈ s :: order := by
    rw [contains_insert_iff] at ht
    grind
  have hnew : s ∉ order := by
    intro hmem
    exact (hnot s (h.sound s hmem).2).1 rfl
  refine ⟨List.nodup_cons.2 ⟨hnew, h.nodup⟩, ?_, ?_, ?_, ?_, ?_⟩
  · intro t ht
    rcases List.mem_cons.1 ht with rfl | ht
    · exact ⟨hP, hs⟩
    · exact ⟨(h.sound t ht).1, (hnot t (h.sound t ht).2).2⟩
  · intro t ht
    rcases List.mem_cons.1 ht with rfl | ht
    · exact .inr (by simp)
    · exact hmem t (h.complete t (List.mem_append_right _ ht))
  · intro t ht u hu
    rcases List.mem_cons.1 ht with rfl | ht
    · exact hmem u (h.complete u (List.mem_append_left _ (List.mem_reverse.2 hu)))
    · exact hmem u (h.closed t ht u hu)
  · intro front t rest hsplit
    cases front with
    | nil =>
      obtain ⟨rfl, -⟩ := List.cons_eq_cons.1 hsplit
      exact .inl (by simp)
    | cons u front =>
      obtain ⟨rfl, hrest⟩ := List.cons_eq_cons.1 hsplit
      rcases h.behind front t rest hrest with ht | ⟨u, hu, ht⟩
      · rcases List.mem_append.1 ht with ht | ht
        · exact .inr ⟨s, by simp, List.mem_reverse.1 ht⟩
        · exact .inl (List.mem_cons_of_mem s ht)
      · exact .inr ⟨u, List.mem_cons_of_mem s hu, ht⟩
  · intro t ht _
    simpa using ht

end Explored

theorem explore_explored {successors : State → Read (List State)} {next : State → List State} {P : State → Prop}
    (hP : ∀ s, P s → successors s = .ok (next s) ∧ ∀ t ∈ next s, P t) (visited : TreeSet State) (stack : List State)
    (hstack : ∀ s ∈ stack, P s) :
    ∃ order, explore successors .one none visited stack = ⟨order, none⟩ ∧ Explored next P visited stack order := by
  generalize hwanted : (none : Option Nat) = wanted
  fun_induction explore successors .one wanted visited stack with
  | case1 => exact ⟨[], rfl, by simp, by simp, by simp, by simp, by simp, by simp⟩
  | case2 wanted visited s stack hs ih =>
    obtain ⟨order, heq, h⟩ := ih (fun t ht => hstack t (List.mem_cons_of_mem s ht)) hwanted
    exact ⟨order, heq, h.pass_over hs⟩
  | case3 wanted visited s stack hs hsize ih =>
    subst hwanted
    obtain ⟨hok, hnext⟩ := hP s (hstack s (by simp))
    have hall : ∀ t ∈ (next s).reverse ++ stack, P t := by
      intro t ht
      rcases List.mem_append.1 ht with ht | ht
      · exact hnext t (List.mem_reverse.1 ht)
      · exact hstack t (List.mem_cons_of_mem s ht)
    obtain ⟨order, heq, h⟩ := ih none (next s) hall rfl
    refine ⟨s :: order, ?_, h.meet hs (hstack s (by simp))⟩
    simp [Readout.one, hok, heq]

section

variable {α : Type} {successors : State → Read (List State)} {visit : State → Readout α} {visited : TreeSet State}
  {stack : List State}

/-- A walk that is stopped has found the first of what it finds when it is not. -/
theorem explore_upTo (hvisit : ∀ s, (visit s).items.length ≤ 1) {as : List α}
    (h : explore successors visit none visited stack = ⟨as, none⟩) {wanted : Option Nat} (hwanted : wanted ≠ some 0) :
    explore successors visit wanted visited stack = .upTo wanted as := by
  fun_induction explore successors visit wanted visited stack generalizing as with
  | case1 =>
    rw [explore] at h
    obtain rfl : [] = as := congrArg Readout.items h
    exact Readout.done_eq_upTo _
  | case2 wanted visited s stack hs ih =>
    rw [explore, dif_pos hs] at h
    exact ih h hwanted
  | case3 wanted visited s stack hs hsize ih =>
    rw [explore, dif_neg hs] at h
    refine Readout.andThen_eq_upTo (hvisit s) h (fun bs hrest wanted hwanted => ?_) hwanted
    cases hok : successors s with
    | error f => simp [hok, Readout.fail] at hrest
    | ok ts =>
      simp only [hok] at hrest
      exact ih wanted ts hrest hwanted

/-- A walk that ends has met the states on the stack and whatever the ones that it met lead to. -/
theorem explore_closed {order : List State} (h : explore successors .one none visited stack = ⟨order, none⟩) :
    (∀ s ∈ stack, visited.contains s ∨ s ∈ order) ∧
      ∀ s ∈ order, ∃ ts, successors s = .ok ts ∧ ∀ t ∈ ts, visited.contains t ∨ t ∈ order := by
  generalize hwanted : (none : Option Nat) = wanted at h
  fun_induction explore successors .one wanted visited stack generalizing order with
  | case1 =>
    obtain rfl : [] = order := congrArg Readout.items h
    simp
  | case2 wanted visited s stack hs ih =>
    obtain ⟨hstack, horder⟩ := ih hwanted h
    exact ⟨List.forall_mem_cons.2 ⟨.inl hs, hstack⟩, horder⟩
  | case3 wanted visited s stack hs hsize ih =>
    subst hwanted
    rw [Readout.one, Readout.andThen_all, Readout.mk.injEq] at h
    obtain ⟨rfl, hfault⟩ := h
    cases hok : successors s with
    | error f => simp [hok, Readout.fail] at hfault
    | ok ts =>
      simp only [hok] at hfault ⊢
      obtain ⟨hstack, horder⟩ := ih none ts rfl (by rw [← hfault])
      have hmet {t : State} {rest : List State} (ht : (visited.insert s).contains t ∨ t ∈ rest) :
          visited.contains t ∨ t ∈ s :: rest := by
        rw [contains_insert_iff] at ht
        grind
      refine ⟨List.forall_mem_cons.2 ⟨.inr (by simp), fun t ht => hmet (hstack t (List.mem_append_right _ ht))⟩, ?_⟩
      refine List.forall_mem_cons.2 ⟨⟨ts, hok, fun t ht => ?_⟩, fun t ht => ?_⟩
      · exact hmet (hstack t (List.mem_append_left _ (List.mem_reverse.2 ht)))
      · obtain ⟨us, hus, hall⟩ := horder t ht
        exact ⟨us, hus, fun u hu => hmet (hall u hu)⟩

/-- What is found at the states that a walk meets, in this order. -/
theorem explore_flatMap {found : State → List α} {order : List State}
    (h : explore successors .one none visited stack = ⟨order, none⟩) (hvisit : ∀ s ∈ order, visit s = ⟨found s, none⟩) :
    explore successors visit none visited stack = ⟨order.flatMap found, none⟩ := by
  generalize hwanted : (none : Option Nat) = wanted at h
  fun_induction explore successors .one wanted visited stack generalizing order with
  | case1 =>
    obtain rfl : [] = order := congrArg Readout.items h
    rw [explore]
    rfl
  | case2 wanted visited s stack hs ih =>
    rw [explore, dif_pos hs]
    exact ih hvisit hwanted h
  | case3 wanted visited s stack hs hsize ih =>
    subst hwanted
    rw [Readout.one, Readout.andThen_all, Readout.mk.injEq] at h
    obtain ⟨rfl, hfault⟩ := h
    rw [explore, dif_neg hs, hvisit s (by simp), Readout.andThen_all]
    cases hok : successors s with
    | error f => simp [hok, Readout.fail] at hfault
    | ok ts =>
      simp only [hok] at hvisit hfault ⊢
      rw [ih none ts (fun t ht => hvisit t (List.mem_append_right _ ht)) rfl (by rw [← hfault])]
      simp

/-- A walk that finds no fault finds none at any state that it meets. -/
theorem explore_faultless {order : List State} {as : List α}
    (horder : explore successors .one none visited stack = ⟨order, none⟩)
    (h : explore successors visit none visited stack = ⟨as, none⟩) : ∀ s ∈ order, (visit s).fault = none := by
  generalize hwanted : (none : Option Nat) = wanted at h
  fun_induction explore successors visit wanted visited stack generalizing order as with
  | case1 =>
    rw [explore] at horder
    obtain rfl : [] = order := congrArg Readout.items horder
    simp
  | case2 wanted visited s stack hs ih =>
    rw [explore, dif_pos hs] at horder
    exact ih horder hwanted h
  | case3 wanted visited s stack hs hsize ih =>
    subst hwanted
    rw [explore, dif_neg hs, Readout.one, Readout.andThen_all, Readout.mk.injEq] at horder
    obtain ⟨rfl, hfault⟩ := horder
    cases hvisit : visit s with
    | mk items fault =>
      cases fault with
      | some f => simp [hvisit, Readout.andThen, Readout.isEnough] at h
      | none =>
        rw [hvisit, Readout.andThen_all, Readout.mk.injEq] at h
        cases hok : successors s with
        | error f => simp [hok, Readout.fail] at hfault
        | ok ts =>
          simp only [hok] at hfault h ⊢
          rw [List.singleton_append, List.forall_mem_cons]
          exact ⟨by rw [hvisit], ih none ts (by rw [← hfault]) rfl (by rw [← h.2])⟩

end

namespace Graph

variable {G : Graph}

/-- An order of all states that a path leads to, each of them once. -/
structure Ordered (G : Graph) (order : List State) : Prop where
  nodup : order.Nodup
  mem_iff : ∀ s, s ∈ order ↔ G.Reachable s

theorem mem_of_reachable {order : List State} (hroot : ∀ r ∈ G.root, r ∈ order)
    (hclosed : ∀ s ∈ order, ∀ t ∈ G.targets s, t ∈ order) {s : State} (hs : G.Reachable s) : s ∈ order := by
  induction hs with
  | root h => exact hroot _ h
  | step _ ht ih => exact hclosed _ ih _ ht

theorem not_reachable (hroot : G.root = none) (s : State) : ¬G.Reachable s := by
  intro hs
  induction hs with
  | root h =>
    rw [hroot] at h
    cases h
  | step _ _ ih => exact ih

end Graph

namespace Automaton

variable {A : Automaton}

/-- The reachable states in the order of a walk, the root first. -/
structure Surveyed (A : Automaton) (order : List State) : Prop extends A.graph.Ordered order where
  head_eq : order.head? = A.graph.root

theorem Readable.preorder (h : A.Readable) : ∃ order, A.preorder none = ⟨order, none⟩ ∧ A.Surveyed order ∧
    ∀ front s rest, order = front ++ s :: rest → A.graph.root = some s ∨ ∃ t ∈ front, s ∈ A.graph.targets t := by
  rw [Automaton.preorder, collect, h.root]
  cases hr : A.graph.root with
  | none =>
    refine ⟨[], rfl, ⟨⟨List.nodup_nil, ?_⟩, by simp [hr]⟩, by simp⟩
    intro s
    simp [Graph.not_reachable hr s]
  | some r =>
    have hP (s : State) (hs : A.graph.Reachable s) :
        A.targets s = .ok (A.graph.targets s) ∧ ∀ t ∈ A.graph.targets s, A.graph.Reachable t :=
      ⟨h.targets hs, fun t ht => .step hs ht⟩
    have hstack : ∀ s ∈ [r], A.graph.Reachable s := by
      intro s hs
      rw [List.mem_singleton.1 hs]
      exact .root hr
    obtain ⟨order, heq, ho⟩ := explore_explored hP ∅ [r] hstack
    refine ⟨order, heq, ⟨⟨ho.nodup, ?_⟩, ?_⟩, ?_⟩
    · intro s
      constructor
      · intro hs
        exact (ho.sound s hs).1
      · intro hs
        refine Graph.mem_of_reachable ?_ ?_ hs
        · intro t ht
          obtain rfl : r = t := by simpa [hr] using ht
          simpa using ho.complete r (by simp)
        · intro s hs t ht
          simpa using ho.closed s hs t ht
    · rw [hr]
      exact ho.head r (by simp) (by simp)
    · intro front s rest hsplit
      refine (ho.behind front s rest hsplit).imp_left fun hs => ?_
      rw [List.mem_singleton.1 hs]

section

variable {α : Type} {visit : State → Readout α}

theorem collect_upTo (hvisit : ∀ s, (visit s).items.length ≤ 1) {as : List α} (h : A.collect visit none = ⟨as, none⟩)
    {wanted : Option Nat} (hwanted : wanted ≠ some 0) : A.collect visit wanted = .upTo wanted as := by
  rw [collect] at h ⊢
  split
  · rename_i f hroot
    simp [hroot, Readout.fail] at h
  · rename_i hroot
    obtain rfl : [] = as := by simpa [hroot, Readout.done] using h
    exact Readout.done_eq_upTo wanted
  · rename_i r hroot
    rw [hroot] at h
    exact explore_upTo hvisit h hwanted

theorem collect_flatMap {found : State → List α} {order : List State} (h : A.preorder none = ⟨order, none⟩)
    (hvisit : ∀ s ∈ order, visit s = ⟨found s, none⟩) : A.collect visit none = ⟨order.flatMap found, none⟩ := by
  rw [preorder, collect] at h
  rw [collect]
  split
  · rename_i f hroot
    simp [hroot, Readout.fail] at h
  · rename_i hroot
    obtain rfl : [] = order := by simpa [hroot, Readout.done] using h
    rfl
  · rename_i r hroot
    rw [hroot] at h
    exact explore_flatMap h hvisit

theorem collect_faultless {order : List State} {as : List α} (horder : A.preorder none = ⟨order, none⟩)
    (h : A.collect visit none = ⟨as, none⟩) : ∀ s ∈ order, (visit s).fault = none := by
  rw [preorder, collect] at horder
  rw [collect] at h
  split at h
  · cases h
  · rename_i hroot
    obtain rfl : [] = order := by simpa [hroot, Readout.done] using horder
    simp
  · rename_i r hroot
    rw [hroot] at horder
    exact explore_faultless horder h

end

theorem Readable.survey (h : A.Readable) : ∃ order, A.survey = .ok order ∧ A.Surveyed order := by
  obtain ⟨order, heq, ho, -⟩ := h.preorder
  refine ⟨order, ?_, ho⟩
  have hrows : order.mapM A.row = .ok (order.map A.graph.row) := mapM_eq_map fun s hs => h.row ((ho.mem_iff s).1 hs)
  simp [Automaton.survey, heq, Readout.all, hrows]

theorem preorder_of_survey {order : List State} (h : A.survey = .ok order) :
    A.preorder none = ⟨order, none⟩ ∧ ∀ s ∈ order, ∃ ts, A.row s = .ok ts := by
  obtain ⟨states, hstates, hrest⟩ := bind_eq_ok.1 h
  obtain ⟨rows, hrows, hlast⟩ := bind_eq_ok.1 hrest
  obtain rfl := Except.ok.inj hlast
  exact ⟨Readout.all_eq_ok.1 hstates, fun s hs => exists_of_mapM_eq_ok hrows hs⟩

/-- A survey tells whether an automaton can be read. -/
theorem readable_of_survey {order : List State} (h : A.survey = .ok order) : A.Readable := by
  obtain ⟨hpreorder, hrows⟩ := preorder_of_survey h
  rw [preorder, collect] at hpreorder
  cases hroot : A.root with
  | error f => simp [hroot, Readout.fail] at hpreorder
  | ok r =>
    refine ⟨⟨r, hroot⟩, fun hs => ?_⟩
    cases r with
    | none => exact absurd hs (Graph.not_reachable (graph_root hroot) _)
    | some r =>
      rw [hroot] at hpreorder
      obtain ⟨hstack, hclosed⟩ := explore_closed hpreorder
      refine hrows _ (Graph.mem_of_reachable ?_ ?_ hs)
      · intro t ht
        obtain rfl : r = t := Option.some.inj ((graph_root hroot).symm.trans ht)
        simpa using hstack r (by simp)
      · intro s hs t ht
        obtain ⟨row, hrow⟩ := hrows s hs
        obtain ⟨ts, hts, hall⟩ := hclosed s hs
        rw [targets_of_row hrow] at hts
        obtain rfl := Except.ok.inj hts
        rw [Graph.targets, graph_row hrow] at ht
        simpa using hall t ht

end Automaton

end WordAutomata
