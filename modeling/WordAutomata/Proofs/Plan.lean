import Mathlib
import WordAutomata.Proofs.Walk
import WordAutomata.Write.Layout

namespace WordAutomata

open Std (TreeMap)

def Transition.map (f : State → State) (t : Transition) : Transition := { t with target := t.target.map f }

/-- `f` takes one automaton to another one of the same shape: root to root, arc to arc in the same order. -/
structure Graph.Iso (G H : Graph) (f : State → State) : Prop where
  bijOn : Set.BijOn f {s | G.Reachable s} {s | H.Reachable s}
  root_eq : H.root = G.root.map f
  row_eq : ∀ s, G.Reachable s → H.row (f s) = (G.row s).map (Transition.map f)

/-- Another automaton has the same shape, and with every state its count if it is to store them. -/
structure Automaton.Restored (A B : Automaton) (numbers : Bool) : Prop where
  readable : B.Readable
  iso : ∃ f, A.graph.Iso B.graph f ∧ (numbers = true → ∃ counts, A.counts = .ok counts ∧
    ∀ s, A.graph.Reachable s → ∃ n, counts[s]? = some n ∧ B.storedCount (f s) = .ok (some n))

namespace Graph

variable {G H : Graph} {f : State → State}

theorem mem_targets_of_row {s t : State} (hrow : H.row (f s) = (G.row s).map (Transition.map f)) :
    t ∈ H.targets (f s) ↔ ∃ u ∈ G.targets s, f u = t := by
  have htarget (x : Transition) : (x.map f).target = x.target.map f := rfl
  simp only [targets, hrow, List.filterMap_map, List.mem_filterMap, Function.comp_def, htarget, Option.map_eq_some_iff]
  constructor
  · rintro ⟨x, hx, u, hu, ht⟩
    exact ⟨u, ⟨x, hx, hu⟩, ht⟩
  · rintro ⟨u, ⟨x, hx, hu⟩, ht⟩
    exact ⟨x, hx, u, hu, ht⟩

/-- It is enough to know what becomes of each reachable state, if no two become the same. -/
theorem iso_of_injOn (hroot : H.root = G.root.map f)
    (hrow : ∀ s, G.Reachable s → H.row (f s) = (G.row s).map (Transition.map f))
    (hinj : Set.InjOn f {s | G.Reachable s}) : G.Iso H f := by
  refine ⟨⟨?_, hinj, ?_⟩, hroot, hrow⟩
  · intro s hs
    induction hs with
    | root hr => exact .root (by rw [hroot, hr]; rfl)
    | step hs ht ih => exact Reachable.step ih ((mem_targets_of_row (hrow _ hs)).2 ⟨_, ht, rfl⟩)
  · intro t ht
    induction ht with
    | root hr =>
      rw [hroot, Option.map_eq_some_iff] at hr
      obtain ⟨s, hs, rfl⟩ := hr
      exact ⟨s, .root hs, rfl⟩
    | step _ ht ih =>
      obtain ⟨s, hs, rfl⟩ := ih
      obtain ⟨u, hu, rfl⟩ := (mem_targets_of_row (hrow s hs)).1 ht
      exact ⟨u, Reachable.step hs hu, rfl⟩

/-- The place of a state in an order. -/
def placeIn (order : List State) (s : State) : Nat := (places order).getD s order.length

theorem placeIn_eq {order : List State} (h : order.Nodup) {i : Nat} {s : State} (hs : order[i]? = some s) :
    placeIn order s = i := by
  refine TreeMap.getD_ofList_of_mem (k := s) Std.ReflCmp.compare_self ?_ (List.mem_zipIdx_iff_getElem?.2 hs)
  rw [List.pairwise_iff_getElem]
  intro i j hi hj hij heq
  rw [List.getElem_zipIdx, List.getElem_zipIdx, Std.LawfulEqCmp.compare_eq_iff_eq] at heq
  exact List.pairwise_iff_getElem.1 h i j (by simpa using hi) (by simpa using hj) hij heq

theorem plan_eq (G : Graph) (count : State → Nat) (order : List State) : G.plan count order =
    ⟨G.root.map (placeIn order), order.map fun s => ⟨count s, placeArcs (placeIn order) (G.row s)⟩⟩ := rfl

end Graph

namespace PlacedArc

/-- What an arc says to a reader who finds each place at its address. -/
def transition (address : Nat → Nat) (a : PlacedArc) : Transition :=
  ⟨a.label, a.isFinal, a.target.map fun i => ⟨UInt32.ofNat (address i)⟩⟩

/-- What an arc says to a reader who keeps the low 32 bits of its address, 0 standing for no target. -/
def cut (address : Nat → Nat) (a : PlacedArc) : Transition :=
  let target := UInt32.ofNat (a.target.elim 0 address)
  ⟨a.label, a.isFinal, if target = 0 then none else some ⟨target⟩⟩

/-- Whatever an arc refers to stands at an address of 32 bits other than 0. -/
def Sound (address : Nat → Nat) (a : PlacedArc) : Prop := ∀ i ∈ a.target, 0 < address i ∧ address i < 2 ^ 32

section

variable {address : Nat → Nat} {a : PlacedArc} (h : a.Sound address)

include h

theorem Sound.target_lt : a.target.elim 0 address < 2 ^ 32 := by
  cases ha : a.target with
  | none =>
    show 0 < 2 ^ 32
    decide
  | some i => exact (h i ha).2

/-- The address 0 stands for no target. -/
theorem Sound.target_eq :
    (if UInt32.ofNat (a.target.elim 0 address) = 0 then none else some ⟨UInt32.ofNat (a.target.elim 0 address)⟩) =
      (a.transition address).target := by
  cases ha : a.target with
  | none => simp [transition, ha]
  | some i =>
    obtain ⟨hpos, hlt⟩ := h i ha
    have hne : UInt32.ofNat (address i) ≠ 0 := by
      intro hzero
      have hnat := UInt32.toNat_ofNat_of_lt' hlt
      rw [hzero, UInt32.toNat_zero] at hnat
      omega
    simp [transition, ha, hne]

theorem Sound.cut_eq : a.cut address = a.transition address := by
  rw [cut, h.target_eq]
  rfl

end

/-- Arcs of which the last one is marked, and no other. -/
inductive Run : List PlacedArc → Prop
  | last {a : PlacedArc} : a.isLast = true → Run [a]
  | more {a : PlacedArc} {as : List PlacedArc} : a.isLast = false → Run as → Run (a :: as)

theorem Run.ne_nil {as : List PlacedArc} (h : Run as) : as ≠ [] := by
  cases h <;> simp

theorem run_placeArcs (place : State → Nat) {ts : List Transition} (h : ts ≠ []) : Run (placeArcs place ts) := by
  fun_induction placeArcs place ts with
  | case1 => exact absurd rfl h
  | case2 t => exact .last rfl
  | case3 t u ts ih => exact .more rfl (ih (by simp))

theorem map_transition_placeArcs (place : State → Nat) (address : Nat → Nat) (ts : List Transition) :
    (placeArcs place ts).map (transition address) =
      ts.map (Transition.map fun s => ⟨UInt32.ofNat (address (place s))⟩) := by
  fun_induction placeArcs place ts with
  | case1 => rfl
  | case2 t => cases h : t.target <;> simp [transition, Transition.map, h]
  | case3 t u ts ih => cases h : t.target <;> simp [transition, Transition.map, h, ih]

theorem map_target_placeArcs (place : State → Nat) (ts : List Transition) :
    (placeArcs place ts).map target = ts.map fun t => t.target.map place := by
  fun_induction placeArcs place ts with
  | case1 => rfl
  | case2 t => rfl
  | case3 t u ts ih => rw [List.map_cons, ih]; rfl

theorem length_placeArcs (place : State → Nat) (ts : List Transition) :
    (placeArcs place ts).length = ts.length := by
  simpa using congrArg List.length (map_target_placeArcs place ts)

end PlacedArc

namespace Plan

/-- Every row has its last arc marked, and whatever is referred to has a place. -/
structure Sound (P : Plan) : Prop where
  run : ∀ r ∈ P.rows, PlacedArc.Run r.arcs
  target_lt : ∀ r ∈ P.rows, ∀ a ∈ r.arcs, ∀ i ∈ a.target, i < P.rows.length
  root_lt : ∀ i ∈ P.root, i < P.rows.length

/-- An automaton has for each row of a plan a state with these arcs, at the address of its place. -/
structure ReadBack (P : Plan) (address : Nat → Nat) (B : Automaton) : Prop where
  root : B.root = .ok (P.root.map fun i => ⟨UInt32.ofNat (address i)⟩)
  row : ∀ i r, P.rows[i]? = some r →
    B.row ⟨UInt32.ofNat (address i)⟩ = .ok (r.arcs.map (PlacedArc.transition address))
  injective : ∀ i j, i < P.rows.length → j < P.rows.length →
    UInt32.ofNat (address i) = UInt32.ofNat (address j) → i = j

/-- The state that is written for a state. -/
def image (address : Nat → Nat) (order : List State) (s : State) : State :=
  ⟨UInt32.ofNat (address (Graph.placeIn order s))⟩

variable {G : Graph} {count : State → Nat} {order : List State} (horder : G.Ordered order)

include horder

theorem exists_placeIn {s : State} (hs : G.Reachable s) : order[Graph.placeIn order s]? = some s := by
  obtain ⟨i, hi, heq⟩ := List.getElem_of_mem ((horder.mem_iff s).2 hs)
  have hget : order[i]? = some s := by rw [List.getElem?_eq_getElem hi, heq]
  rw [Graph.placeIn_eq horder.nodup hget, hget]

theorem placeIn_lt {s : State} (hs : G.Reachable s) : Graph.placeIn order s < (G.plan count order).rows.length := by
  rw [Graph.plan_eq, List.length_map]
  exact (List.getElem?_eq_some_iff.1 (exists_placeIn horder hs)).1

theorem row_of_reachable {s : State} (hs : G.Reachable s) : (G.plan count order).rows[Graph.placeIn order s]? =
    some ⟨count s, placeArcs (Graph.placeIn order) (G.row s)⟩ := by
  rw [Graph.plan_eq, List.getElem?_map, exists_placeIn horder hs]
  rfl

theorem sound (hne : ∀ s, G.Reachable s → G.row s ≠ []) : (G.plan count order).Sound := by
  refine ⟨?_, ?_, ?_⟩
  · intro r hr
    rw [Graph.plan_eq] at hr
    obtain ⟨s, hs, rfl⟩ := List.mem_map.1 hr
    exact PlacedArc.run_placeArcs _ (hne s ((horder.mem_iff s).1 hs))
  · intro r hr a ha i hi
    rw [Graph.plan_eq] at hr
    obtain ⟨s, hs, rfl⟩ := List.mem_map.1 hr
    have hmap : a.target ∈ (placeArcs (Graph.placeIn order) (G.row s)).map PlacedArc.target := List.mem_map_of_mem ha
    rw [PlacedArc.map_target_placeArcs, Option.mem_def.1 hi, List.mem_map] at hmap
    obtain ⟨t, ht, htarget⟩ := hmap
    obtain ⟨u, hu, rfl⟩ := Option.map_eq_some_iff.1 htarget
    exact placeIn_lt horder (.step ((horder.mem_iff s).1 hs) (List.mem_filterMap.2 ⟨t, ht, hu⟩))
  · intro i hi
    rw [Graph.plan_eq] at hi
    obtain ⟨s, hs, rfl⟩ := Option.map_eq_some_iff.1 hi
    exact placeIn_lt horder (.root hs)

theorem ReadBack.iso {address : Nat → Nat} {B : Automaton} (h : (G.plan count order).ReadBack address B) :
    G.Iso B.graph (image address order) ∧ B.Readable := by
  have hroot : B.graph.root = G.root.map (image address order) := by
    rw [Automaton.graph_root h.root, Graph.plan_eq, Option.map_map]
    rfl
  have hrow (s : State) (hs : G.Reachable s) :
      B.row (image address order s) = .ok ((G.row s).map (Transition.map (image address order))) := by
    rw [image, h.row _ _ (row_of_reachable horder hs), PlacedArc.map_transition_placeArcs]
    rfl
  have hiso : G.Iso B.graph (image address order) := by
    apply Graph.iso_of_injOn hroot (fun s hs => Automaton.graph_row (hrow s hs))
    intro s hs t ht heq
    have hplace := h.injective _ _ (placeIn_lt horder hs) (placeIn_lt horder ht) (State.mk.inj heq)
    have hsame := exists_placeIn horder hs
    rw [hplace, exists_placeIn horder ht] at hsame
    exact (Option.some.inj hsame).symm
  refine ⟨hiso, ⟨⟨_, h.root⟩, ?_⟩⟩
  intro t ht
  obtain ⟨s, hs, rfl⟩ := hiso.bijOn.surjOn ht
  exact ⟨_, hrow s hs⟩

end Plan

theorem Automaton.Readable.plan_sound {A : Automaton} (hread : A.Readable) {order : List State}
    (horder : A.graph.Ordered order) (count : State → Nat) : (A.graph.plan count order).Sound := by
  apply Plan.sound horder
  intro s hs
  obtain ⟨a, -, h⟩ := Automaton.row_eq_ok.1 (hread.row hs)
  exact h.ne_nil

end WordAutomata
