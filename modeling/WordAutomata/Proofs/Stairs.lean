import WordAutomata.Proofs.Separators
import WordAutomata.Proofs.Spread

namespace WordAutomata

namespace Graph

/-- States one behind the other. Each has an arc with each of some letters, and all its arcs lead to the next state. Those
of the last state lead nowhere; they may end words. -/
inductive Stairs (G : Graph) (ends : Bool) : List (List UInt8) → List State → Prop
  | last {l : List UInt8} {s : State} : G.row s = l.map (⟨·, ends, none⟩) → Stairs G ends [l] [s]
  | more {l : List UInt8} {ls : List (List UInt8)} {s t : State} {ss : List State} :
      G.row s = l.map (⟨·, false, some t⟩) → Stairs G ends ls (t :: ss) → Stairs G ends (l :: ls) (s :: t :: ss)

variable {G : Graph} {depth : Nat} {W : List Word} {s : State}

section

variable (h : G.Spells depth W) (htrim : G.Trim)
  (hdistinct : ∀ s t, G.Reachable s → G.Reachable t → (∀ w, w ∈ G.spelled depth s ↔ w ∈ G.spelled depth t) → s = t)

include h htrim hdistinct

/-- The row of a state that spells the words with any of some letters at each place. -/
theorem Spells.row_of_spread (hs : G.Reachable s) {l : List UInt8} {ls : List (List UInt8)} (hl : l.Pairwise (· < ·))
    (hls : ∀ l' ∈ ls, l' ≠ []) (hspread : ∀ w, w ∈ G.spelled depth s ↔ w ∈ spread (l :: ls)) :
    ls = [] ∧ G.row s = l.map (⟨·, true, none⟩) ∨
      ls ≠ [] ∧ ∃ t, G.row s = l.map (⟨·, false, some t⟩) ∧ ∀ w, w ∈ G.spelled depth t ↔ w ∈ spread ls := by
  have hmem (t : Transition) (ht : t ∈ G.row s) : t.label ∈ l ∧
      ∀ v, v ∈ spread ls ↔ v = [] ∧ t.isFinal = true ∨ v ∈ t.target.elim [] (G.spelled depth) := by
    obtain ⟨w, hw⟩ := htrim.exists_cons_mem_spelled h.shallow hs ht
    have hlabel := (cons_mem_spread.1 ((hspread _).1 hw)).1
    refine ⟨hlabel, fun v => ?_⟩
    rw [← h.cons_mem_iff hs ht, hspread, cons_mem_spread]
    exact (and_iff_right hlabel).symm
  have hreach (t : Transition) (ht : t ∈ G.row s) (u : State) (hu : t.target = some u) : G.Reachable u :=
    .step hs (mem_targets.2 ⟨t, ht, hu⟩)
  have hlabels : (G.row s).map Transition.label = l := by
    refine (List.pairwise_map.2 (h.ascending s hs)).eq_of_mem_iff hl fun c => ?_
    rw [List.mem_map]
    constructor
    · rintro ⟨t, ht, rfl⟩
      exact (hmem t ht).1
    · intro hc
      obtain ⟨w, hw⟩ := exists_mem_spread hls
      obtain ⟨t, ht, hlabel, -⟩ :=
        (cons_mem_spelled (h.shallow s hs)).1 ((hspread _).2 (cons_mem_spread.2 ⟨hc, hw⟩))
      exact ⟨t, ht, hlabel⟩
  have hrow (f : UInt8 → Transition) (hf : ∀ t ∈ G.row s, f t.label = t) : G.row s = l.map f := by
    rw [← hlabels, List.map_map]
    exact ((List.map_congr_left hf).trans (List.map_id _)).symm
  cases ls with
  | nil =>
    refine .inl ⟨rfl, hrow _ fun t ht => ?_⟩
    obtain ⟨-, hiff⟩ := hmem t ht
    have hnone : t.target = none := by
      rw [Option.eq_none_iff_forall_ne_some]
      intro u hu
      obtain ⟨w, hw⟩ := htrim.exists_mem_spelled (hreach t ht u hu) (h.shallow u (hreach t ht u hu))
      obtain rfl : w = [] := List.mem_singleton.1 ((hiff w).2 (.inr (by simpa [hu] using hw)))
      exact nil_notMem_spelled depth u hw
    have hfinal : t.isFinal = true := by simpa [hnone] using (hiff []).1 (List.mem_singleton_self [])
    rw [← hfinal, ← hnone]
  | cons l' ls =>
    obtain ⟨v, hv⟩ := exists_mem_spread hls
    have hv' : v ≠ [] := by
      rintro rfl
      simpa using length_of_mem_spread hv
    have hleads (t : Transition) (ht : t ∈ G.row s) : t.isFinal = false ∧
        ∃ u, t.target = some u ∧ ∀ w, w ∈ G.spelled depth u ↔ w ∈ spread (l' :: ls) := by
      obtain ⟨-, hiff⟩ := hmem t ht
      have hfinal : t.isFinal = false := by
        by_contra hf
        have hnil := length_of_mem_spread ((hiff []).2 (.inl ⟨rfl, by simpa using hf⟩))
        simp at hnil
      refine ⟨hfinal, ?_⟩
      cases hu : t.target with
      | none => simpa [hu, hv'] using (hiff v).1 hv
      | some u => exact ⟨u, rfl, fun w => by simpa [hu, hfinal] using (hiff w).symm⟩
    obtain ⟨t, ht⟩ := List.exists_mem_of_ne_nil _ (htrim s hs).1
    obtain ⟨-, u, hu, hspells⟩ := hleads t ht
    refine .inr ⟨by simp, u, hrow _ fun t' ht' => ?_, hspells⟩
    obtain ⟨hfinal, u', hu', hspells'⟩ := hleads t' ht'
    obtain rfl : u = u' :=
      hdistinct u u' (hreach t ht u hu) (hreach t' ht' u' hu') fun w => (hspells w).trans (hspells' w).symm
    rw [← hfinal, ← hu']

/-- A state that spells the words with any of some letters at each place is the first of so many. -/
theorem Spells.stairs (hs : G.Reachable s) {l : List UInt8} {ls : List (List UInt8)}
    (hls : ∀ l' ∈ l :: ls, l'.Pairwise (· < ·) ∧ l' ≠ [])
    (hspread : ∀ w, w ∈ G.spelled depth s ↔ w ∈ spread (l :: ls)) : ∃ ss, G.Stairs true (l :: ls) (s :: ss) := by
  induction ls generalizing s l with
  | nil =>
    obtain ⟨hl, hls⟩ := List.forall_mem_cons.1 hls
    rcases h.row_of_spread htrim hdistinct hs hl.1 (fun l' hl' => (hls l' hl').2) hspread with ⟨-, hrow⟩ | ⟨hne, -⟩
    · exact ⟨[], .last hrow⟩
    · exact absurd rfl hne
  | cons l' ls ih =>
    obtain ⟨hl, hls⟩ := List.forall_mem_cons.1 hls
    rcases h.row_of_spread htrim hdistinct hs hl.1 (fun l' hl' => (hls l' hl').2) hspread with
      ⟨hnil, -⟩ | ⟨-, t, hrow, hspells⟩
    · cases hnil
    · obtain ⟨c, hc⟩ := List.exists_mem_of_ne_nil l hl.2
      have ht : G.Reachable t := .step hs (mem_targets.2 ⟨⟨c, false, some t⟩, hrow ▸ List.mem_map_of_mem hc, rfl⟩)
      obtain ⟨ss, hstairs⟩ := ih ht hls hspells
      exact ⟨t :: ss, .more hrow hstairs⟩

end

namespace Stairs

open Relation (TransGen)

variable {ends : Bool} {l : List UInt8} {ls : List (List UInt8)} {ss : List State} {t : State}

theorem length_eq (h : G.Stairs ends ls ss) : ss.length = ls.length := by
  induction h with
  | last => rfl
  | more _ _ ih => rw [List.length_cons, ih, List.length_cons]

theorem row_eq (h : G.Stairs ends ls ss) {i : Nat} (hs : ss[i]? = some s) (hl : ls[i]? = some l) :
    G.row s = l.map (⟨·, ends && ss[i + 1]?.isNone, ss[i + 1]?⟩) := by
  induction h generalizing i with
  | last hrow =>
    cases i with
    | zero =>
      cases hs
      cases hl
      simpa using hrow
    | succ i => simp at hs
  | more hrow _ ih =>
    cases i with
    | zero =>
      cases hs
      cases hl
      simpa using hrow
    | succ i => exact ih hs hl

/-- States are known to be stairs by the row of each. -/
theorem of_row_eq (hls : ls ≠ []) (hlength : ss.length = ls.length)
    (hrow : ∀ (i : Nat) (s : State) (l : List UInt8), ss[i]? = some s → ls[i]? = some l →
      G.row s = l.map (⟨·, ends && ss[i + 1]?.isNone, ss[i + 1]?⟩)) : G.Stairs ends ls ss := by
  induction ls generalizing ss with
  | nil => exact absurd rfl hls
  | cons l ls ih =>
    cases ss with
    | nil => cases hlength
    | cons s ss =>
      have hfirst := hrow 0 s l rfl rfl
      cases ls with
      | nil =>
        obtain rfl : ss = [] := List.length_eq_zero_iff.1 (by simpa using hlength)
        exact .last (by simpa using hfirst)
      | cons l' ls =>
        cases ss with
        | nil => simp at hlength
        | cons t ss =>
          refine .more (by simpa using hfirst) (ih (by simp) (by simpa using hlength) fun i u m hu hm => ?_)
          exact hrow (i + 1) u m hu hm

/-- The arcs of a state lead to the one behind it. -/
theorem eq_of_mem_targets (h : G.Stairs ends ls ss) {i : Nat} (hs : ss[i]? = some s) (ht : t ∈ G.targets s) :
    ss[i + 1]? = some t := by
  have hi : i < ls.length := h.length_eq ▸ (List.getElem?_eq_some_iff.1 hs).1
  have hrow := h.row_eq hs (List.getElem?_eq_getElem hi)
  obtain ⟨u, hu, htarget⟩ := mem_targets.1 ht
  rw [hrow, List.mem_map] at hu
  obtain ⟨c, -, rfl⟩ := hu
  exact htarget

theorem mem_of_mem_targets (h : G.Stairs ends ls ss) (hs : s ∈ ss) (ht : t ∈ G.targets s) : t ∈ ss := by
  obtain ⟨i, hi⟩ := List.mem_iff_getElem?.1 hs
  exact List.mem_of_getElem? (h.eq_of_mem_targets hi ht)

theorem mem_of_reachable (h : G.Stairs ends ls (s :: ss)) (hroot : G.root = some s) (ht : G.Reachable t) : t ∈ s :: ss := by
  refine Graph.mem_of_reachable ?_ (fun _ hs _ ht => h.mem_of_mem_targets hs ht) ht
  intro r hr
  obtain rfl : s = r := Option.some.inj (hroot.symm.trans hr)
  exact List.mem_cons_self

/-- What is new behind the first states and led to by one of them is the next. -/
theorem next_eq (h : G.Stairs ends ls (s :: ss)) (hroot : G.root = some s) {k : Nat} (hnew : t ∉ (s :: ss).take k)
    (hbehind : G.root = some t ∨ ∃ u ∈ (s :: ss).take k, t ∈ G.targets u) : (s :: ss)[k]? = some t := by
  rcases hbehind with hr | ⟨u, hu, htarget⟩
  · obtain rfl : s = t := Option.some.inj (hroot.symm.trans hr)
    cases k with
    | zero => rfl
    | succ k => simp at hnew
  · obtain ⟨j, hj⟩ := List.mem_iff_getElem?.1 hu
    have hjk : j < k := by
      have hlt := (List.getElem?_eq_some_iff.1 hj).1
      rw [List.length_take] at hlt
      omega
    rw [List.getElem?_take_of_lt hjk] at hj
    have hnext := h.eq_of_mem_targets hj htarget
    by_cases hlast : j + 1 = k
    · rwa [hlast] at hnext
    · rw [← List.getElem?_take_of_lt (show j + 1 < k by omega)] at hnext
      exact absurd (List.mem_of_getElem? hnext) hnew

/-- Every path ends behind the last state. -/
theorem shallow (h : G.Stairs ends ls ss) (hs : s ∈ ss) : G.Shallow ls.length s := by
  induction h generalizing s with
  | @last l s' hrow =>
    obtain rfl := List.mem_singleton.1 hs
    intro t ht
    obtain ⟨u, hu, htarget⟩ := mem_targets.1 ht
    rw [hrow, List.mem_map] at hu
    obtain ⟨c, -, rfl⟩ := hu
    cases htarget
  | @more l ls s' t' ss hrow _ ih =>
    rcases List.mem_cons.1 hs with rfl | hs
    · intro t ht
      obtain ⟨u, hu, htarget⟩ := mem_targets.1 ht
      rw [hrow, List.mem_map] at hu
      obtain ⟨c, -, rfl⟩ := hu
      obtain rfl : t' = t := Option.some.inj htarget
      exact ih (by simp)
    · exact (ih hs).succ

theorem acyclic (h : G.Stairs ends ls (s :: ss)) (hroot : G.root = some s) : G.Acyclic :=
  fun _ ht => (h.shallow (h.mem_of_reachable hroot ht)).not_transGen

/-- Nothing is spelled where no arc ends words. -/
theorem spelled_eq_nil (h : G.Stairs false ls ss) (depth : Nat) (hs : s ∈ ss) : G.spelled depth s = [] := by
  induction depth generalizing s with
  | zero => rfl
  | succ depth ih =>
    obtain ⟨i, hi⟩ := List.mem_iff_getElem?.1 hs
    have hlt : i < ls.length := h.length_eq ▸ (List.getElem?_eq_some_iff.1 hi).1
    rw [spelled, h.row_eq hi (List.getElem?_eq_getElem hlt), List.flatMap_map, List.flatMap_eq_nil_iff]
    intro c _
    cases hnext : ss[i + 1]? with
    | none => rfl
    | some t => simp [Transition.words, ih (List.mem_of_getElem? hnext)]

section

variable (h : G.Stairs ends ls (s :: ss)) (hls : ∀ l ∈ ls, l ≠ [])

include h hls

theorem mem_targets {i : Nat} {u v : State} (hu : (s :: ss)[i]? = some u) (hv : (s :: ss)[i + 1]? = some v) :
    v ∈ G.targets u := by
  have hi : i < ls.length := h.length_eq ▸ (List.getElem?_eq_some_iff.1 hu).1
  obtain ⟨c, hc⟩ := List.exists_mem_of_ne_nil _ (hls _ (List.getElem_mem hi))
  rw [Graph.mem_targets, h.row_eq hu (List.getElem?_eq_getElem hi)]
  exact ⟨_, List.mem_map_of_mem hc, hv⟩

theorem reachable (hroot : G.root = some s) (ht : t ∈ s :: ss) : G.Reachable t := by
  obtain ⟨i, hi⟩ := List.mem_iff_getElem?.1 ht
  induction i generalizing t with
  | zero =>
    obtain rfl : s = t := Option.some.inj hi
    exact .root hroot
  | succ i ih =>
    have hlt := (List.getElem?_eq_some_iff.1 hi).1
    have hbefore : (s :: ss)[i]? = some ((s :: ss)[i]) := List.getElem?_eq_getElem (by omega)
    exact .step (ih (List.mem_of_getElem? hbefore) hbefore) (h.mem_targets hls hbefore hi)

theorem pairwise : (s :: ss).Pairwise (TransGen G.Leads) := by
  have hchain : (s :: ss).IsChain G.Leads := by
    rw [List.isChain_iff_getElem]
    intro i hi
    exact h.mem_targets hls (List.getElem?_eq_getElem (by omega)) (List.getElem?_eq_getElem hi)
  exact (hchain.imp fun _ _ hab => .single hab).pairwise

theorem nodup (hroot : G.root = some s) : (s :: ss).Nodup := by
  refine (h.pairwise hls).imp_of_mem ?_
  rintro u v hu - huv rfl
  exact h.acyclic hroot u (h.reachable hls hroot hu) huv

/-- There is one order in which every state but the root stands behind one that leads to it. -/
theorem order_eq (hroot : G.root = some s) {order : List State} (horder : G.Ordered order)
    (hbehind : ∀ front t rest, order = front ++ t :: rest → G.root = some t ∨ ∃ u ∈ front, t ∈ G.targets u) :
    order = s :: ss := by
  have hmem (t : State) : t ∈ order ↔ t ∈ s :: ss :=
    (horder.mem_iff t).trans ⟨h.mem_of_reachable hroot, h.reachable hls hroot⟩
  have hlength : order.length = (s :: ss).length :=
    ((List.perm_ext_iff_of_nodup horder.nodup (h.nodup hls hroot)).2 hmem).length_eq
  have htake (k : Nat) (hk : k ≤ order.length) : order.take k = (s :: ss).take k := by
    induction k with
    | zero => rfl
    | succ k ih =>
      have hfront := ih (by omega)
      have hlt : k < order.length := by omega
      have hsplit : order = order.take k ++ order[k] :: order.drop (k + 1) := by
        rw [List.getElem_cons_drop, List.take_append_drop]
      have hnew : order[k] ∉ order.take k := by
        intro hmem
        have hnodup := horder.nodup
        rw [hsplit, List.nodup_append] at hnodup
        exact hnodup.2.2 _ hmem _ List.mem_cons_self rfl
      have hlead := hbehind _ _ _ hsplit
      rw [hfront] at hnew hlead
      rw [List.take_add_one, List.take_add_one, hfront, h.next_eq hroot hnew hlead, List.getElem?_eq_getElem hlt]
  have hall := htake order.length (Nat.le_refl _)
  rwa [List.take_length, hlength, List.take_length] at hall

end

end Stairs

end Graph

namespace PlacedArc

/-- Arcs with some letters that all lead to one place or nowhere. -/
def fan (isFinal : Bool) (target : Option Nat) : List UInt8 → List PlacedArc
  | [] => []
  | [c] => [⟨c, isFinal, true, target⟩]
  | c :: d :: cs => ⟨c, isFinal, false, target⟩ :: fan isFinal target (d :: cs)

theorem placeArcs_fan (place : State → Nat) (isFinal : Bool) (target : Option State) (l : List UInt8) :
    placeArcs place (l.map (⟨·, isFinal, target⟩)) = fan isFinal (target.map place) l := by
  fun_induction fan isFinal (target.map place) l with
  | case1 => rfl
  | case2 c => rfl
  | case3 c d cs ih => rw [← ih]; rfl

theorem run_fan (isFinal : Bool) {l : List UInt8} (h : l ≠ []) : Run (fan isFinal none l) := by
  have hrun := run_placeArcs (fun _ => 0) (show l.map (fun c => Transition.mk c isFinal none) ≠ [] by simpa using h)
  rwa [placeArcs_fan] at hrun

theorem map_transition_fan (address : Nat → Nat) (isFinal : Bool) (l : List UInt8) :
    (fan isFinal none l).map (transition address) = l.map (⟨·, isFinal, none⟩) := by
  have hmap := map_transition_placeArcs (fun _ => 0) address (l.map (⟨·, isFinal, none⟩))
  rw [placeArcs_fan, List.map_map] at hmap
  exact hmap

variable {isFinal : Bool} {target : Option Nat} {l : List UInt8}

theorem target_of_mem_fan {a : PlacedArc} (h : a ∈ fan isFinal target l) : a.target = target := by
  fun_induction fan isFinal target l with
  | case1 => simp at h
  | case2 c => rw [List.mem_singleton.1 h]
  | case3 c d cs ih =>
    rcases List.mem_cons.1 h with rfl | h
    · rfl
    · exact ih h

theorem map_cut_fan (address : Nat → Nat) : (fan isFinal target l).map (cut address) =
    l.map (⟨·, isFinal, (cut address ⟨0, isFinal, true, target⟩).target⟩) := by
  fun_induction fan isFinal target l with
  | case1 => rfl
  | case2 c => rfl
  | case3 c d cs ih => rw [List.map_cons, ih]; rfl

theorem length_fan (isFinal : Bool) (target : Option Nat) (l : List UInt8) : (fan isFinal target l).length = l.length := by
  fun_induction fan isFinal target l with
  | case1 => rfl
  | case2 c => rfl
  | case3 c d cs ih => simp [ih]

open UniformWriter

/-- Of the arcs to the next place, the last one does without an address. -/
theorem sum_arcSize_fan (width place : Nat) (h : l ≠ []) :
    ((fan isFinal (some (place + 1)) l).map (arcSize width place)).sum = (l.length - 1) * (1 + width) + 2 := by
  fun_induction fan isFinal (some (place + 1)) l with
  | case1 => exact absurd rfl h
  | case2 c => simp [arcSize, isShort]
  | case3 c d cs ih =>
    rw [List.map_cons, List.sum_cons, ih (by simp)]
    simp [arcSize, isShort, Nat.succ_mul]
    omega

end PlacedArc

/-- A plan in which all arcs of a row lead to the next one. Those of the last row lead nowhere and end words. -/
structure Plan.Stairs (P : Plan) (ls : List (List UInt8)) : Prop where
  root_eq : P.root = some 0
  length_eq : P.rows.length = ls.length
  arcs_eq : ∀ i r l, P.rows[i]? = some r → ls[i]? = some l →
    r.arcs = PlacedArc.fan (decide (i + 1 = ls.length)) (if i + 1 < ls.length then some (i + 1) else none) l

theorem Graph.Stairs.plan {G : Graph} {ls : List (List UInt8)} {s : State} {ss : List State}
    (h : G.Stairs true ls (s :: ss)) (hroot : G.root = some s) (hnodup : (s :: ss).Nodup) (count : State → Nat) :
    (G.plan count (s :: ss)).Stairs ls := by
  have hlength := h.length_eq
  refine ⟨?_, ?_, ?_⟩
  · rw [Graph.plan_eq, hroot, Option.map_some, Graph.placeIn_eq hnodup (i := 0) rfl]
  · rw [Graph.plan_eq, List.length_map, hlength]
  · intro i r l hr hl
    rw [Graph.plan_eq, List.getElem?_map, Option.map_eq_some_iff] at hr
    obtain ⟨t, ht, rfl⟩ := hr
    simp only [h.row_eq ht hl, PlacedArc.placeArcs_fan, Bool.true_and]
    have hlt := (List.getElem?_eq_some_iff.1 hl).1
    cases hnext : (s :: ss)[i + 1]? with
    | none =>
      rw [List.getElem?_eq_none_iff] at hnext
      have hlast : i + 1 = ls.length := by omega
      simp [hlast]
    | some u =>
      have hbehind := (List.getElem?_eq_some_iff.1 hnext).1
      have hmore : i + 1 < ls.length := by omega
      rw [Option.map_some, Graph.placeIn_eq hnodup hnext, if_pos hmore]
      simp [Nat.ne_of_lt hmore]

/-- The automaton of the words with any of some letters at each place has one state for each place. -/
theorem Builder.Finished.stairs {ls : List (List UInt8)} {p : Pool} {root : UInt32} (h : Finished (spread ls) p root)
    (hne : ls ≠ []) (hls : ∀ l ∈ ls, l.Pairwise (· < ·) ∧ l ≠ []) :
    ∃ s ss, (p.reader root).graph.root = some s ∧ (p.reader root).graph.Stairs true ls (s :: ss) := by
  obtain ⟨l, ls, rfl⟩ := List.exists_cons_of_ne_nil hne
  obtain ⟨depth, -, hspells⟩ := h.spells
  obtain ⟨w, hw⟩ := exists_mem_spread fun l' hl' => (hls l' hl').2
  obtain ⟨s, hroot, haccepts⟩ := h.root_accepts (List.ne_nil_of_mem hw)
  have hmem {s : State} (hs : (p.reader root).graph.Reachable s) := Graph.mem_spelled_iff (hspells.shallow s hs)
  obtain ⟨ss, hstairs⟩ := hspells.stairs h.trim
    (fun s t hs ht hsame => h.eq_of_accepts hs ht fun w => by rw [← hmem hs, ← hmem ht, hsame w])
    (.root hroot) hls fun w => (hmem (.root hroot) w).trans (haccepts w)
  exact ⟨s, ss, hroot, hstairs⟩

end WordAutomata
