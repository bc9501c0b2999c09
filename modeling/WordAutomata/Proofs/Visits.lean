import Mathlib
import WordAutomata.Layout.Record
import WordAutomata.Proofs.Walk

namespace WordAutomata

open Std (TreeSet)

namespace Graph

/-- An arc leads from the one state to the other. -/
def Leads (G : Graph) (s t : State) : Prop := t ∈ G.targets s

/-- No reachable state leads back to itself. -/
def Acyclic (G : Graph) : Prop := ∀ s, G.Reachable s → ¬Relation.TransGen G.Leads s s

/-- An order in which a state stands behind all states that it leads to, some of which may be done already. -/
def ChildrenFirst (G : Graph) : (State → Prop) → List State → Prop
  | _, [] => True
  | done, s :: order => ¬done s ∧ (∀ t ∈ G.targets s, done t) ∧ G.ChildrenFirst (fun t => done t ∨ t = s) order

namespace ChildrenFirst

variable {G : Graph} {done done' : State → Prop} {order : List State}

theorem congr (hdone : ∀ t, done t ↔ done' t) (h : G.ChildrenFirst done order) : G.ChildrenFirst done' order := by
  obtain rfl : done = done' := funext fun t => propext (hdone t)
  exact h

theorem targets_before (h : G.ChildrenFirst done order) {front rest : List State} {s : State}
    (hsplit : order = front ++ s :: rest) : ∀ t ∈ G.targets s, done t ∨ t ∈ front := by
  induction front generalizing done order with
  | nil =>
    subst hsplit
    exact fun t ht => .inl (h.2.1 t ht)
  | cons x front ih =>
    subst hsplit
    intro t ht
    rcases ih h.2.2 rfl t ht with (ht | rfl) | ht
    · exact .inl ht
    · exact .inr (by simp)
    · exact .inr (List.mem_cons_of_mem x ht)

end ChildrenFirst

end Graph

namespace Automaton

variable {A : Automaton}

/-- The states on the stack of an unfinished walk: an arc leads from each to the one above, and whatever the arcs before
its cursor lead to has been met. -/
def Open (A : Automaton) (met : State → Prop) : Option State → List (State × Option Arc) → Prop
  | _, [] => True
  | above, (s, cursor) :: stack =>
    A.graph.Reachable s ∧
    (∃ behind ahead, A.graph.row s = behind ++ ahead ∧ A.CarriesOn cursor ahead ∧
      ∀ t ∈ behind.filterMap Transition.target, met t) ∧
    (∀ t ∈ above, A.graph.Leads s t) ∧ A.Open met (some s) stack

namespace Open

variable {met met' : State → Prop} {above : Option State} {stack : List (State × Option Arc)}

theorem mono (h : A.Open met above stack) (hmet : ∀ t, met t → met' t) : A.Open met' above stack := by
  induction stack generalizing above with
  | nil => trivial
  | cons x stack ih =>
    obtain ⟨hs, ⟨behind, ahead, hrow, hahead, hbehind⟩, hleads, h⟩ := h
    exact ⟨hs, ⟨behind, ahead, hrow, hahead, fun t ht => hmet t (hbehind t ht)⟩, hleads, ih h⟩

theorem top (h : A.Open met above stack) : A.Open met none stack := by
  cases stack with
  | nil => trivial
  | cons x stack =>
    obtain ⟨hs, hcursor, -, h⟩ := h
    exact ⟨hs, hcursor, by simp, h⟩

/-- Whatever is on the stack leads to the top. -/
theorem leads_top {s t : State} {cursor : Option Arc} (h : A.Open met above ((s, cursor) :: stack))
    (ht : t ∈ ((s, cursor) :: stack).map Prod.fst) : Relation.ReflTransGen A.graph.Leads t s := by
  induction stack generalizing above s cursor with
  | nil =>
    obtain rfl : t = s := by simpa using ht
    exact .refl
  | cons x stack ih =>
    obtain ⟨u, cursor'⟩ := x
    rcases List.mem_cons.1 ht with rfl | ht
    · exact .refl
    · obtain ⟨-, -, -, h⟩ := h
      exact (ih h ht).tail (h.2.2.1 s rfl)

end Open

/-- The walk has met whatever is on the stack, and put nothing there twice. -/
structure Walking (A : Automaton) (visited : TreeSet State) (stack : List (State × Option Arc)) : Prop where
  met : ∀ s ∈ stack.map Prod.fst, visited.contains s
  nodup : (stack.map Prod.fst).Nodup
  isOpen : A.Open (fun t => visited.contains t) none stack

/-- The order in which a walk finishes some states that are open, the top first, and others that it has yet to meet. -/
structure Completes (G : Graph) (visited : TreeSet State) (opened order : List State) : Prop where
  nodup : order.Nodup
  reachable : ∀ s ∈ order, G.Reachable s
  fresh : ∀ s ∈ order, s ∈ opened ∨ ¬visited.contains s
  complete : ∀ s ∈ opened, s ∈ order
  closed : ∀ s ∈ order, ∀ t ∈ G.targets s, visited.contains t ∨ t ∈ order
  last : order.getLast? = opened.getLast?
  /-- What has been met is either open or done. -/
  childrenFirst : G.Acyclic → G.ChildrenFirst (fun t => visited.contains t ∧ t ∉ opened) order

namespace Walking

variable {visited : TreeSet State} {s : State} {a : Arc} {next : Option Arc} {stack : List (State × Option Arc)}
  {order : List State}

/-- A state is finished when all of its arcs have been followed. -/
theorem below (h : A.Walking visited ((s, none) :: stack)) : A.Walking visited stack := by
  obtain ⟨-, -, -, hopen⟩ := h.isOpen
  exact ⟨fun t ht => h.met t (List.mem_cons_of_mem s ht), (List.nodup_cons.1 h.nodup).2, hopen.top⟩

theorem targets_met (h : A.Walking visited ((s, none) :: stack)) : ∀ t ∈ A.graph.targets s, visited.contains t := by
  obtain ⟨-, ⟨behind, ahead, hrow, hahead, hbehind⟩, -, -⟩ := h.isOpen
  obtain rfl : ahead = [] := hahead
  rw [List.append_nil] at hrow
  rw [Graph.targets, hrow]
  exact hbehind

theorem finish_top (h : A.Walking visited ((s, none) :: stack))
    (horder : Completes A.graph visited (stack.map Prod.fst) order) :
    Completes A.graph visited (s :: stack.map Prod.fst) (s :: order) := by
  have hs : A.graph.Reachable s := h.isOpen.1
  have hmet : visited.contains s := h.met s (by simp)
  have hnotin : s ∉ stack.map Prod.fst := (List.nodup_cons.1 h.nodup).1
  have hnew : s ∉ order := fun hmem => (horder.fresh s hmem).elim hnotin fun hnot => hnot hmet
  refine ⟨List.nodup_cons.2 ⟨hnew, horder.nodup⟩, ?_, ?_, ?_, ?_, ?_, ?_⟩
  · exact List.forall_mem_cons.2 ⟨hs, horder.reachable⟩
  · refine List.forall_mem_cons.2 ⟨.inl (by simp), fun t ht => ?_⟩
    exact (horder.fresh t ht).imp_left (List.mem_cons_of_mem s)
  · exact List.forall_mem_cons.2 ⟨by simp, fun t ht => List.mem_cons_of_mem s (horder.complete t ht)⟩
  · refine List.forall_mem_cons.2 ⟨fun t ht => .inl (h.targets_met t ht), fun t ht u hu => ?_⟩
    exact (horder.closed t ht u hu).imp_right (List.mem_cons_of_mem s)
  · rw [List.getLast?_cons, List.getLast?_cons, horder.last]
  · intro hacyclic
    refine ⟨by simp, fun t ht => ⟨h.targets_met t ht, fun hopen => ?_⟩, (horder.childrenFirst hacyclic).congr fun t => ?_⟩
    · exact hacyclic s hs (.head' ht (h.isOpen.leads_top hopen))
    · simp only [List.mem_cons]
      grind

theorem top_arc (h : A.Walking visited ((s, some a) :: stack)) :
    ∃ t next, A.nextArc a = .ok next ∧ A.transition a = .ok t := by
  obtain ⟨-, ⟨behind, ahead, -, hahead, -⟩, -, -⟩ := h.isOpen
  obtain ⟨t, ahead, next, -, hnext, ht, -⟩ := Carries.step hahead
  exact ⟨t, next, hnext, ht⟩

theorem top_target (h : A.Walking visited ((s, some a) :: stack)) {target : Option State}
    (htarget : A.target a = .ok target) : ∃ t, A.transition a = .ok t ∧ t.target = target := by
  obtain ⟨t, -, -, ht⟩ := h.top_arc
  obtain ⟨-, -, htarget'⟩ := transition_eq_ok.1 ht
  exact ⟨t, ht, Except.ok.inj (htarget'.symm.trans htarget)⟩

variable {t : Transition} (h : A.Walking visited ((s, some a) :: stack)) (ht : A.transition a = .ok t)

include h ht

theorem leads_target {u : State} (hu : t.target = some u) : A.graph.Leads s u := by
  obtain ⟨-, ⟨behind, ahead, hrow, hahead, -⟩, -, -⟩ := h.isOpen
  obtain ⟨t', ahead', next', rfl, -, ht', -⟩ := Carries.step hahead
  obtain rfl : t = t' := Except.ok.inj (ht.symm.trans ht')
  simp [Graph.Leads, Graph.targets, hrow, hu]

variable (hnext : A.nextArc a = .ok next)

include hnext

/-- An arc is passed once what it leads to has been met. -/
theorem pass_arc (htarget : ∀ u ∈ t.target, visited.contains u) : A.Walking visited ((s, next) :: stack) := by
  obtain ⟨hs, ⟨behind, ahead, hrow, hahead, hbehind⟩, -, hopen⟩ := h.isOpen
  obtain ⟨t', ahead', next', rfl, hnext', ht', hahead'⟩ := Carries.step hahead
  obtain rfl : next = next' := Except.ok.inj (hnext.symm.trans hnext')
  obtain rfl : t = t' := Except.ok.inj (ht.symm.trans ht')
  refine ⟨h.met, h.nodup, hs, ⟨behind ++ [t], ahead', by simp [hrow], hahead', ?_⟩, by simp, hopen⟩
  intro u hu
  rw [List.filterMap_append, List.mem_append] at hu
  rcases hu with hu | hu
  · exact hbehind u hu
  · exact htarget u (by simpa using hu)

/-- An arc to a new state puts this state on top of its own. -/
theorem enter_target (hread : A.Readable) {u : State} (hu : t.target = some u) (hnew : ¬visited.contains u) {b : Arc}
    (hb : A.firstArc u = .ok b) : A.Walking (visited.insert u) ((u, some b) :: (s, next) :: stack) := by
  have hleads := h.leads_target ht hu
  have hreach : A.graph.Reachable u := .step h.isOpen.1 hleads
  obtain ⟨b', hb', hcarries⟩ := row_eq_ok.1 (hread.row hreach)
  obtain rfl : b = b' := Except.ok.inj (hb.symm.trans hb')
  have hinsert (v : State) (hv : visited.contains v) : (visited.insert u).contains v :=
    contains_insert_iff.2 (.inr hv)
  have hself : (visited.insert u).contains u := contains_insert_iff.2 (.inl rfl)
  have hgrown : A.Walking (visited.insert u) ((s, some a) :: stack) :=
    ⟨fun v hv => hinsert v (h.met v hv), h.nodup, h.isOpen.mono hinsert⟩
  have hpassed := hgrown.pass_arc ht hnext fun v hv => by
    obtain rfl : u = v := Option.some.inj (hu.symm.trans hv)
    exact hself
  obtain ⟨hs, hcursor, -, hopen⟩ := hpassed.isOpen
  refine ⟨?_, List.nodup_cons.2 ⟨fun hmem => hnew (h.met u hmem), h.nodup⟩, ?_⟩
  · exact List.forall_mem_cons.2 ⟨hself, hpassed.met⟩
  · refine ⟨hreach, ⟨[], A.graph.row u, rfl, hcarries, by simp⟩, by simp, hs, hcursor, ?_, hopen⟩
    intro v hv
    obtain rfl : u = v := Option.some.inj hv
    exact hleads

end Walking

/-- A state that is met on the way is finished before those below it. -/
theorem Completes.of_insert {G : Graph} {visited : TreeSet State} {u : State} {opened order : List State}
    (h : Completes G (visited.insert u) (u :: opened) order) (hopened : opened ≠ []) (hnew : ¬visited.contains u) :
    Completes G visited opened order := by
  refine ⟨h.nodup, h.reachable, ?_, fun s hs => h.complete s (List.mem_cons_of_mem u hs), ?_, ?_, ?_⟩
  · intro s hs
    have := h.fresh s hs
    rw [contains_insert_iff, List.mem_cons] at this
    grind
  · intro s hs t ht
    have := h.closed s hs t ht
    rw [contains_insert_iff] at this
    have hu := h.complete u (by simp)
    grind
  · obtain ⟨s, opened, rfl⟩ := List.exists_cons_of_ne_nil hopened
    rw [h.last, List.getLast?_cons_cons]
  · refine fun hacyclic => (h.childrenFirst hacyclic).congr fun t => ?_
    rw [contains_insert_iff, List.mem_cons]
    grind

theorem finish_completes (hread : A.Readable) (visited : TreeSet State) (stack : List (State × Option Arc))
    (h : A.Walking visited stack) :
    ∃ order, A.finish none visited stack = ⟨order, none⟩ ∧ Completes A.graph visited (stack.map Prod.fst) order := by
  -- What is open leads from each state of the stack to the one above it, and no step of the walk runs into a fault.
  generalize hwanted : (none : Option Nat) = wanted
  fun_induction A.finish wanted visited stack with
  | case1 => exact ⟨[], rfl, by simp, by simp, by simp, by simp, by simp, rfl, fun _ => trivial⟩
  | case2 wanted visited s stack ih =>
    subst hwanted
    obtain ⟨order, heq, horder⟩ := ih none h.below rfl
    exact ⟨s :: order, by simp [Readout.one, heq], h.finish_top horder⟩
  | case3 wanted visited s a stack f hnext =>
    obtain ⟨t, next, hnext', -⟩ := h.top_arc
    simp [hnext] at hnext'
  | case4 wanted visited s a stack next hnext hlt f htarget =>
    obtain ⟨t, -, -, ht⟩ := h.top_arc
    simp [(transition_eq_ok.1 ht).2.2] at htarget
  | case5 wanted visited s a stack next hnext hlt htarget ih =>
    obtain ⟨t, ht, hnone⟩ := h.top_target htarget
    exact ih (h.pass_arc ht hnext (by simp [hnone])) hwanted
  | case6 wanted visited s a stack next hnext hlt u htarget hvisited ih =>
    obtain ⟨t, ht, hu⟩ := h.top_target htarget
    exact ih (h.pass_arc ht hnext (by simpa [hu] using hvisited)) hwanted
  | case7 wanted visited s a stack next hnext hlt u htarget hnew hsize f hfirst =>
    obtain ⟨t, ht, hu⟩ := h.top_target htarget
    have hreach : A.graph.Reachable u := .step h.isOpen.1 (h.leads_target ht hu)
    obtain ⟨b, hb, -⟩ := row_eq_ok.1 (hread.row hreach)
    simp [hb] at hfirst
  | case8 wanted visited s a stack next hnext hlt u htarget hnew hsize b hfirst ih =>
    obtain ⟨t, ht, hu⟩ := h.top_target htarget
    obtain ⟨order, heq, horder⟩ := ih (h.enter_target ht hnext hread hu hnew hfirst) hwanted
    exact ⟨order, heq, horder.of_insert (by simp) hnew⟩

section

variable {visited : TreeSet State} {stack : List (State × Option Arc)} {wanted : Option Nat}

theorem finish_arc {s : State} {a : Arc} {next : Option Arc} (hnext : A.nextArc a = .ok next) :
    A.finish wanted visited ((s, some a) :: stack) =
      match A.target a with
      | .error f => .fail f
      | .ok none => A.finish wanted visited ((s, next) :: stack)
      | .ok (some t) =>
        if visited.contains t then A.finish wanted visited ((s, next) :: stack)
        else match A.firstArc t with
          | .error f => .fail f
          | .ok b => A.finish wanted (visited.insert t) ((t, some b) :: (s, next) :: stack) := by
  rw [finish]
  split
  · rename_i f hfault
    cases hnext.symm.trans hfault
  · rename_i next' hnext'
    obtain rfl : next = next' := Except.ok.inj (hnext.symm.trans hnext')
    rfl

/-- A walk that is stopped has finished the first of the states that it finishes when it is not. -/
theorem finish_upTo {order : List State} (h : A.finish none visited stack = ⟨order, none⟩) (hwanted : wanted ≠ some 0) :
    A.finish wanted visited stack = .upTo wanted order := by
  fun_induction A.finish wanted visited stack generalizing order with
  | case1 =>
    rw [finish] at h
    obtain rfl : [] = order := congrArg Readout.items h
    exact Readout.done_eq_upTo _
  | case2 wanted visited s stack ih =>
    rw [finish] at h
    exact Readout.andThen_eq_upTo (by simp [Readout.one]) h (fun bs hrest wanted hwanted => ih wanted hrest hwanted) hwanted
  | case3 wanted visited s a stack f hnext =>
    rw [finish] at h
    split at h
    · simp [Readout.fail] at h
    · rename_i next hnext'
      cases hnext.symm.trans hnext'
  | case4 wanted visited s a stack next hnext hlt f htarget =>
    rw [finish_arc hnext, htarget] at h
    simp [Readout.fail] at h
  | case5 wanted visited s a stack next hnext hlt htarget ih =>
    rw [finish_arc hnext, htarget] at h
    exact ih h hwanted
  | case6 wanted visited s a stack next hnext hlt u htarget hvisited ih =>
    rw [finish_arc hnext, htarget] at h
    exact ih (by simpa [hvisited] using h) hwanted
  | case7 wanted visited s a stack next hnext hlt u htarget hnew hsize f hfirst =>
    rw [finish_arc hnext, htarget] at h
    simp [hnew, hfirst, Readout.fail] at h
  | case8 wanted visited s a stack next hnext hlt u htarget hnew hsize b hfirst ih =>
    rw [finish_arc hnext, htarget] at h
    exact ih (by simpa [hnew, hfirst] using h) hwanted

end

theorem postorder_upTo (A : Automaton) {order : List State} (h : A.postorder none = ⟨order, none⟩) {wanted : Option Nat}
    (hwanted : wanted ≠ some 0) : A.postorder wanted = .upTo wanted order := by
  rw [postorder] at h ⊢
  split
  · rename_i f hroot
    simp [hroot, Readout.fail] at h
  · rename_i hroot
    obtain rfl : [] = order := by simpa [hroot, Readout.done] using h
    exact Readout.done_eq_upTo wanted
  · rename_i r hroot
    rw [hroot] at h
    simp only at h
    cases hfirst : A.firstArc r with
    | error f => simp [hfirst, Readout.fail] at h
    | ok a =>
      rw [hfirst] at h
      exact finish_upTo h hwanted

/-- The reachable states, the root last; without cycles each stands behind all states that it leads to. -/
theorem Readable.postorder (hread : A.Readable) :
    ∃ order, A.postorder none = ⟨order, none⟩ ∧ A.graph.Ordered order ∧ order.getLast? = A.graph.root ∧
      (A.graph.Acyclic → A.graph.ChildrenFirst (fun _ => False) order) := by
  rw [Automaton.postorder, hread.root]
  cases hr : A.graph.root with
  | none =>
    refine ⟨[], rfl, ⟨List.nodup_nil, fun s => ?_⟩, rfl, fun _ => trivial⟩
    simp [Graph.not_reachable hr s]
  | some r =>
    have hreach : A.graph.Reachable r := .root hr
    obtain ⟨a, ha, hcarries⟩ := row_eq_ok.1 (hread.row hreach)
    have hmet (t : State) : (({r} : TreeSet State).contains t) = true ↔ r = t := by
      rw [TreeSet.singleton_eq_insert, contains_insert_iff]
      simp
    have hwalking : A.Walking {r} [(r, some a)] := by
      refine ⟨by simp, by simp, hreach, ⟨[], A.graph.row r, rfl, hcarries, by simp⟩, by simp, trivial⟩
    obtain ⟨order, heq, horder⟩ := finish_completes hread _ _ hwalking
    have hroot : r ∈ order := horder.complete r (by simp)
    refine ⟨order, by simp only [ha]; exact heq, ⟨horder.nodup, fun s => ⟨horder.reachable s, ?_⟩⟩, horder.last, ?_⟩
    · refine Graph.mem_of_reachable ?_ ?_
      · intro t ht
        obtain rfl : r = t := Option.some.inj (hr.symm.trans ht)
        exact hroot
      · intro s hs t ht
        refine (horder.closed s hs t ht).elim (fun ht => ?_) id
        exact (hmet t).1 ht ▸ hroot
    · refine fun hacyclic => (horder.childrenFirst hacyclic).congr fun t => ?_
      rw [hmet]
      simp [eq_comm]

/-- Either walk ends, and meets each reachable state once and no other. The first begins with the root and comes to every
other state behind one that leads to it; the second ends with the root and, without cycles, comes to every state behind all
that it leads to. A walk that is stopped at some state has met the states up to this one. -/
theorem Readable.visits (hread : A.Readable) :
    (∃ order, A.preorder none = ⟨order, none⟩ ∧ A.graph.Ordered order ∧ order.head? = A.graph.root ∧
      (∀ front s rest, order = front ++ s :: rest → front = [] ∨ ∃ t ∈ front, A.graph.Leads t s) ∧
      ∀ n, 0 < n → A.preorder (some n) = ⟨order.take n, none⟩) ∧
    ∃ order, A.postorder none = ⟨order, none⟩ ∧ A.graph.Ordered order ∧ order.getLast? = A.graph.root ∧
      (A.graph.Acyclic → ∀ front s rest, order = front ++ s :: rest → ∀ t, A.graph.Leads s t → t ∈ front) ∧
      ∀ n, 0 < n → A.postorder (some n) = ⟨order.take n, none⟩ := by
  have hwanted (n : Nat) (hn : 0 < n) : some n ≠ some 0 := fun h => Nat.ne_of_gt hn (Option.some.inj h)
  constructor
  · obtain ⟨order, heq, horder, hbehind⟩ := hread.preorder
    refine ⟨order, heq, horder.toOrdered, horder.head_eq, ?_, ?_⟩
    · intro front s rest hsplit
      cases front with
      | nil => exact .inl rfl
      | cons r front =>
        -- The root stands in front already.
        refine (hbehind _ s rest hsplit).imp_left fun hroot => ?_
        have hhead : r = s := by simpa [hsplit, hroot] using horder.head_eq
        have hnodup := hsplit ▸ horder.nodup
        simp [hhead] at hnodup
    · intro n hn
      exact collect_upTo (by simp [Readout.one]) heq (hwanted n hn)
  · obtain ⟨order, heq, horder, hlast, hfirst⟩ := hread.postorder
    refine ⟨order, heq, horder, hlast, ?_, fun n hn => A.postorder_upTo heq (hwanted n hn)⟩
    intro hacyclic front s rest hsplit t ht
    exact ((hfirst hacyclic).targets_before hsplit t ht).resolve_left id

/-- A state with two paths to it leads back to the root; no path leads to the last one. -/
theorem visits_circle : ∃ b : RecordBuffer, b.automaton.Readable ∧ Relation.TransGen b.automaton.graph.Leads ⟨6⟩ ⟨6⟩ ∧
    b.automaton.preorder none = ⟨[⟨6⟩, ⟨24⟩, ⟨18⟩], none⟩ ∧ b.automaton.preorder (some 2) = ⟨[⟨6⟩, ⟨24⟩], none⟩ ∧
    b.automaton.postorder none = ⟨[⟨24⟩, ⟨18⟩, ⟨6⟩], none⟩ ∧ b.automaton.postorder (some 2) = ⟨[⟨24⟩, ⟨18⟩], none⟩ := by
  obtain ⟨b, hb⟩ : ∃ b : RecordBuffer, b = ⟨#[1, 0, 0, 0, 0, 6, 0, 97, 0, 0, 0, 18, 3, 98, 0, 0, 0, 24, 3, 99, 0, 0, 0, 24,
    0, 100, 0, 0, 0, 6, 3, 101, 0, 0, 0, 0, 3, 102, 0, 0, 0, 0]⟩ := ⟨_, rfl⟩
  have hrun : (b.automaton.survey, (b.automaton.postorder none).all, b.automaton.row ⟨6⟩, b.automaton.row ⟨24⟩) =
      (.ok [⟨6⟩, ⟨24⟩, ⟨18⟩], .ok [⟨24⟩, ⟨18⟩, ⟨6⟩],
        .ok [⟨97, false, some ⟨18⟩⟩, ⟨98, true, some ⟨24⟩⟩], .ok [⟨100, false, some ⟨6⟩⟩, ⟨101, true, none⟩]) := by
    rw [hb]
    cbv
  simp only [Prod.mk.injEq, Readout.all_eq_ok] at hrun
  obtain ⟨hsurvey, hpostorder, hrow, hrow'⟩ := hrun
  have hread := readable_of_survey hsurvey
  have hleads : b.automaton.graph.Leads ⟨6⟩ ⟨24⟩ := by simp [Graph.Leads, Graph.targets, graph_row hrow]
  have hback : b.automaton.graph.Leads ⟨24⟩ ⟨6⟩ := by simp [Graph.Leads, Graph.targets, graph_row hrow']
  obtain ⟨⟨order, horder, -, -, -, hstopped⟩, order', horder', -, -, -, hstopped'⟩ := hread.visits
  have hpreorder := (preorder_of_survey hsurvey).1
  obtain rfl : [⟨6⟩, ⟨24⟩, ⟨18⟩] = order := congrArg Readout.items (hpreorder.symm.trans horder)
  obtain rfl : [⟨24⟩, ⟨18⟩, ⟨6⟩] = order' := congrArg Readout.items (hpostorder.symm.trans horder')
  exact ⟨b, hread, .tail (.single hleads) hback, horder, hstopped 2 (by decide), horder', hstopped' 2 (by decide)⟩

end Automaton

end WordAutomata
