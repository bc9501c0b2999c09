import WordAutomata.Proofs.Conversion

namespace WordAutomata

open Std (TreeMap TreeSet)

namespace Readout

variable {α β : Type} {R : α → β → Prop}

/-- The items of one readout correspond to those of another, and no fault cuts either short. -/
structure Alike (R : α → β → Prop) (r : Readout α) (r' : Readout β) : Prop where
  items : List.Forall₂ R r.items r'.items
  fault_left : r.fault = none
  fault_right : r'.fault = none

theorem Alike.eq_right {r : Readout α} {r' : Readout β} (h : Alike R r r') : r' = ⟨r'.items, none⟩ := by
  rw [← h.fault_right]

theorem Alike.done : Alike R done done := ⟨.nil, rfl, rfl⟩

theorem Alike.one {a : α} {b : β} (h : R a b) : Alike R (one a) (one b) := ⟨.cons h .nil, rfl, rfl⟩

theorem Alike.andThen {r : Readout α} {r' : Readout β} (h : Alike R r r') (wanted : Option Nat)
    {next : Option Nat → Readout α} {next' : Option Nat → Readout β}
    (hnext : ∀ wanted, Alike R (next wanted) (next' wanted)) : Alike R (r.andThen wanted next) (r'.andThen wanted next') := by
  have hlength := h.items.length_eq
  have henough : r.isEnough wanted = r'.isEnough wanted := by
    simp [isEnough, h.fault_left, h.fault_right, hlength]
  rw [Readout.andThen, Readout.andThen, henough, hlength]
  by_cases hstop : r'.isEnough wanted
  · rw [if_pos hstop, if_pos hstop]
    exact h
  · rw [if_neg hstop, if_neg hstop]
    obtain ⟨hitems, hleft, hright⟩ := hnext (wanted.map (· - r'.items.length))
    refine ⟨?_, ?_, ?_⟩
    · simpa [append, h.fault_left, h.fault_right] using List.rel_append h.items hitems
    · simpa [append, h.fault_left] using hleft
    · simpa [append, h.fault_right] using hright

theorem Alike.map_items {f : α → β} {r : Readout α} {r' : Readout β} (h : Alike (fun a b => f a = b) r r') :
    r' = ⟨r.items.map f, none⟩ := by
  have hmap {as : List α} {bs : List β} (h : List.Forall₂ (fun a b => f a = b) as bs) : as.map f = bs := by
    induction h with
    | nil => rfl
    | cons hab _ ih => rw [List.map_cons, hab, ih]
  rw [hmap h.items]
  exact h.eq_right

end Readout

theorem explore_alike {α β : Type} {successors successors' : State → Read (List State)} {visit : State → Readout α}
    {visit' : State → Readout β} {R : α → β → Prop} {P : State → Prop} {f : State → State} {next : State → List State}
    (hsuccessors : ∀ s, P s → successors s = .ok (next s) ∧ successors' (f s) = .ok ((next s).map f) ∧ ∀ t ∈ next s, P t)
    (hvisit : ∀ s, P s → (visit s).Alike R (visit' (f s))) (hinj : ∀ s t, P s → P t → f s = f t → s = t)
    (wanted : Option Nat) {visited visited' : TreeSet State}
    (hvisited : ∀ s, P s → visited'.contains (f s) = visited.contains s) (stack : List State) (hstack : ∀ s ∈ stack, P s) :
    (explore successors visit wanted visited stack).Alike R (explore successors' visit' wanted visited' (stack.map f)) := by
  -- Both walks have met the same states but for `f`, which tells states apart, so that neither passes over one alone.
  fun_induction explore successors visit wanted visited stack generalizing visited' with
  | case1 wanted visited =>
    rw [List.map_nil, explore]
    exact .done
  | case2 wanted visited s stack hs ih =>
    have hs' : visited'.contains (f s) := by rw [hvisited s (hstack s (by simp)), hs]
    rw [List.map_cons, explore, dif_pos hs']
    exact ih hvisited fun t ht => hstack t (List.mem_cons_of_mem s ht)
  | case3 wanted visited s stack hs hsize ih =>
    have hP := hstack s (by simp)
    obtain ⟨hok, hok', hnext⟩ := hsuccessors s hP
    have hs' : ¬visited'.contains (f s) := by rwa [hvisited s hP]
    rw [List.map_cons, explore, dif_neg hs']
    refine (hvisit s hP).andThen wanted fun wanted => ?_
    have hvisited' (t : State) (ht : P t) : (visited'.insert (f s)).contains (f t) = (visited.insert s).contains t := by
      have hsame : f s = f t ↔ s = t := ⟨hinj s t hP ht, congrArg f⟩
      rw [Bool.eq_iff_iff, contains_insert_iff, contains_insert_iff, hvisited t ht, hsame]
    have hall : ∀ t ∈ (next s).reverse ++ stack, P t := by
      intro t ht
      rcases List.mem_append.1 ht with ht | ht
      · exact hnext t (List.mem_reverse.1 ht)
      · exact hstack t (List.mem_cons_of_mem s ht)
    have hrest := ih wanted (next s) hvisited' hall
    rw [List.map_append, List.map_reverse] at hrest
    rw [hok, hok']
    exact hrest

namespace Automaton

section

variable {A B : Automaton} (hA : A.Readable) (hB : B.Readable) {f : State → State} (hiso : A.graph.Iso B.graph f)

include hA hB hiso

theorem collect_alike {α β : Type} {R : α → β → Prop} {visit : State → Readout α} {visit' : State → Readout β}
    (hvisit : ∀ s, A.graph.Reachable s → (visit s).Alike R (visit' (f s))) (wanted : Option Nat) :
    (A.collect visit wanted).Alike R (B.collect visit' wanted) := by
  have hsuccessors (s : State) (hs : A.graph.Reachable s) : A.targets s = .ok (A.graph.targets s) ∧
      B.targets (f s) = .ok ((A.graph.targets s).map f) ∧ ∀ t ∈ A.graph.targets s, A.graph.Reachable t := by
    have htargets : B.graph.targets (f s) = (A.graph.targets s).map f := hiso.targets_eq hs
    refine ⟨hA.targets hs, ?_, fun t ht => .step hs ht⟩
    rw [hB.targets (hiso.reachable hs), htargets]
  rw [collect, collect, hA.root, hB.root, hiso.root_eq]
  cases hr : A.graph.root with
  | none => exact .done
  | some r =>
    refine explore_alike hsuccessors hvisit (fun s t hs ht => hiso.bijOn.injOn hs ht) wanted ?_ [r] ?_
    · intro s _
      simp
    · intro s hs
      rw [List.mem_singleton.1 hs]
      exact .root hr

theorem survey_copy : ∃ order, A.survey = .ok order ∧ A.Surveyed order ∧ B.survey = .ok (order.map f) := by
  obtain ⟨order, hok, horder⟩ := hA.survey
  obtain ⟨order', hok', -⟩ := hB.survey
  have hvisit (s : State) (_ : A.graph.Reachable s) : (Readout.one s).Alike (fun s t => f s = t) (Readout.one (f s)) :=
    .one rfl
  have halike : (A.preorder none).Alike (fun s t => f s = t) (B.preorder none) :=
    collect_alike hA hB hiso hvisit none
  have hsame : order' = order.map f := by
    rw [(preorder_of_survey hok).1, (preorder_of_survey hok').1] at halike
    exact congrArg Readout.items halike.map_items
  exact ⟨order, hok, horder, hsame ▸ hok'⟩

end

variable {A : Automaton}

/-- How a single arc is looked at for a label. -/
def labelStep (A : Automaton) (c : UInt8) (_ : Unit) (a : Arc) : Read (Unit ⊕ Arc) := do
  return if (← A.label a) = c then .inr a else .inl ()

theorem findArc_eq (s : State) (c : UInt8) : A.findArc s c = A.firstArc s >>= A.along (A.labelStep c) () := rfl

theorem Carries.along_labelStep {a : Arc} {ts : List Transition} (h : A.Carries a ts) (c : UInt8) :
    (A.along (A.labelStep c) () a = .ok none ∧ ∀ t ∈ ts, t.label ≠ c) ∨
      ∃ b, A.along (A.labelStep c) () a = .ok (some b) ∧ ∃ t ∈ ts, t.label = c ∧ A.transition b = .ok t := by
  induction h with
  | @last a t hnext ht =>
    obtain ⟨hlabel, -, -⟩ := transition_eq_ok.1 ht
    by_cases hc : t.label = c
    · exact .inr ⟨a, along_last hnext (y := .inr a) (by simp [labelStep, hlabel, hc]), t, by simp, hc, ht⟩
    · exact .inl ⟨along_last hnext (y := .inl ()) (by simp [labelStep, hlabel, hc]), by simp [hc]⟩
  | @more a b t ts hnext ht _ ih =>
    obtain ⟨hlabel, -, -⟩ := transition_eq_ok.1 ht
    by_cases hc : t.label = c
    · exact .inr ⟨a, along_more hnext (y := .inr a) (by simp [labelStep, hlabel, hc]), t, by simp, hc, ht⟩
    · rw [along_more hnext (y := .inl ()) (by simp [labelStep, hlabel, hc])]
      rcases ih with ⟨hnone, hother⟩ | ⟨d, hfound, u, hu, hd⟩
      · exact .inl ⟨hnone, by simpa [hc] using hother⟩
      · exact .inr ⟨d, hfound, u, List.mem_cons_of_mem t hu, hd⟩

/-- The arc with a label is found exactly if there is one. -/
theorem Readable.findArc_cases (hread : A.Readable) {s : State} (hs : A.graph.Reachable s) (c : UInt8) :
    (A.findArc s c = .ok none ∧ ∀ t ∈ A.graph.row s, t.label ≠ c) ∨
      ∃ a, A.findArc s c = .ok (some a) ∧ ∃ t ∈ A.graph.row s, t.label = c ∧ A.transition a = .ok t := by
  obtain ⟨a, ha, hcarries⟩ := row_eq_ok.1 (hread.row hs)
  rw [findArc_eq, ha, ok_bind]
  exact hcarries.along_labelStep c

theorem Readable.findArc (hread : A.Readable) {s : State} (hs : A.graph.Reachable s) (c : UInt8) :
    ∃ found, A.findArc s c = .ok found ∧ (found.isSome ↔ ∃ t ∈ A.graph.row s, t.label = c) := by
  rcases hread.findArc_cases hs c with ⟨hnone, hother⟩ | ⟨a, hfound, t, ht, hlabel, -⟩
  · exact ⟨none, hnone, by simpa using hother⟩
  · exact ⟨some a, hfound, by simpa using ⟨t, ht, hlabel⟩⟩

end Automaton

namespace PlacedArc

theorem placeArcs_map (f : State → State) (place : State → Nat) (ts : List Transition) :
    placeArcs place (ts.map (Transition.map f)) = placeArcs (fun s => place (f s)) ts := by
  fun_induction placeArcs (fun s => place (f s)) ts with
  | case1 => rfl
  | case2 t => cases h : t.target <;> simp [placeArcs, Transition.map, h]
  | case3 t u ts ih =>
    rw [List.map_cons] at ih
    cases h : t.target <;> simp [placeArcs, Transition.map, h] at ih ⊢ <;> exact ih

theorem placeArcs_congr {place place' : State → Nat} {ts : List Transition}
    (h : ∀ s ∈ ts.filterMap Transition.target, place s = place' s) : placeArcs place ts = placeArcs place' ts := by
  have hmap (t : Transition) (ht : ∀ s ∈ t.target, place s = place' s) : t.target.map place = t.target.map place' :=
    Option.map_congr ht
  fun_induction placeArcs place ts with
  | case1 => rfl
  | case2 t => rw [placeArcs, hmap t fun s hs => h s (List.mem_filterMap.2 ⟨t, by simp, hs⟩)]
  | case3 t u ts ih =>
    have hrest := ih fun s hs => h s (List.mem_filterMap.2 (by grind))
    rw [placeArcs, hmap t fun s hs => h s (List.mem_filterMap.2 ⟨t, by simp, hs⟩), hrest]

end PlacedArc

namespace Graph

/-- The plan of a copy, with the states in the corresponding order, is the same. -/
theorem Iso.plan_eq {G H : Graph} {f : State → State} (h : G.Iso H f) {order : List State} (horder : G.Ordered order)
    (count count' : State → Nat) (hcount : ∀ s, G.Reachable s → count' (f s) = count s) :
    H.plan count' (order.map f) = G.plan count order := by
  have hnodup : (order.map f).Nodup := by
    refine List.Nodup.map_on ?_ horder.nodup
    intro s hs t ht heq
    exact h.bijOn.injOn ((horder.mem_iff s).1 hs) ((horder.mem_iff t).1 ht) heq
  have hplace {s : State} (hs : G.Reachable s) : placeIn (order.map f) (f s) = placeIn order s := by
    apply placeIn_eq hnodup
    rw [List.getElem?_map, Plan.exists_placeIn horder hs]
    rfl
  have hroot : H.root.map (placeIn (order.map f)) = G.root.map (placeIn order) := by
    rw [h.root_eq, Option.map_map]
    exact Option.map_congr fun r hr => hplace (.root hr)
  have hrow (s : State) (hs : s ∈ order) : placeArcs (placeIn (order.map f)) (H.row (f s)) =
      placeArcs (placeIn order) (G.row s) := by
    have hreach := (horder.mem_iff s).1 hs
    rw [h.row_eq s hreach, PlacedArc.placeArcs_map]
    exact PlacedArc.placeArcs_congr fun t ht => hplace (.step hreach ht)
  rw [Graph.plan_eq, Graph.plan_eq, hroot, List.map_map]
  congr 1
  refine List.map_congr_left fun s hs => ?_
  rw [Function.comp_apply, hcount s ((horder.mem_iff s).1 hs), hrow s hs]

end Graph

namespace UniformWriter

/-- The arc of a state with a label. -/
def findLabel (A : Automaton) (c : UInt8) (s : State) : Readout Arc :=
  match A.findArc s c with
  | .error f => .fail f
  | .ok none => .done
  | .ok (some a) => .one a

theorem usesLabel_eq (A : Automaton) (c : UInt8) :
    usesLabel A c = do return (← (A.collect (findLabel A c) (some 1)).all) != [] := rfl

/-- It can be told whether an arc that a path leads to has a label. -/
theorem usesLabel_iff {A : Automaton} (hread : A.Readable) (c : UInt8) : ∃ used, usesLabel A c = .ok used ∧
    (used = true ↔ ∃ s, A.graph.Reachable s ∧ ∃ t ∈ A.graph.row s, t.label = c) := by
  have hone (s : State) : (findLabel A c s).items.length ≤ 1 := by
    rw [findLabel]
    split <;> simp [Readout.fail, Readout.done, Readout.one]
  have hfound (s : State) (hs : A.graph.Reachable s) : findLabel A c s = ⟨(findLabel A c s).items, none⟩ ∧
      ((findLabel A c s).items ≠ [] ↔ ∃ t ∈ A.graph.row s, t.label = c) := by
    obtain ⟨found, hfound, hiff⟩ := hread.findArc hs c
    rw [findLabel, hfound, ← hiff]
    cases found <;> simp [Readout.done, Readout.one]
  obtain ⟨order, hpreorder, horder, -⟩ := hread.preorder
  have hreach (s : State) (hs : s ∈ order) : A.graph.Reachable s := (horder.mem_iff s).1 hs
  have hall := Automaton.collect_flatMap hpreorder fun s hs => (hfound s (hreach s hs)).1
  have hfirst : A.collect (findLabel A c) (some 1) = ⟨(order.flatMap fun s => (findLabel A c s).items).take 1, none⟩ :=
    Automaton.collect_upTo hone hall (by simp)
  refine ⟨_, by rw [usesLabel_eq, hfirst]; rfl, ?_⟩
  rw [bne_iff_ne, Ne, List.take_eq_nil_iff, List.flatMap_eq_nil_iff]
  simp only [one_ne_zero, false_or, not_forall]
  constructor
  · rintro ⟨s, hs, hne⟩
    exact ⟨s, hreach s hs, (hfound s (hreach s hs)).2.1 hne⟩
  · rintro ⟨s, hs, hc⟩
    exact ⟨s, (horder.mem_iff s).2 hs, (hfound s hs).2.2 hc⟩

section

variable {A B : Automaton} (hA : A.Readable) (hB : B.Readable) {f : State → State} (hiso : A.graph.Iso B.graph f)

include hA hB hiso

theorem usesLabel_copy (c : UInt8) : usesLabel B c = usesLabel A c := by
  obtain ⟨used, hused, hiff⟩ := usesLabel_iff hA c
  obtain ⟨used', hused', hiff'⟩ := usesLabel_iff hB c
  have hlabel (s : State) (hs : A.graph.Reachable s) :
      (∃ t ∈ B.graph.row (f s), t.label = c) ↔ ∃ t ∈ A.graph.row s, t.label = c := by
    simp [hiso.row_eq s hs, Transition.map]
  have hsame : used' = used := by
    rw [Bool.eq_iff_iff, hiff, hiff']
    constructor
    · rintro ⟨t, ht, hc⟩
      obtain ⟨s, hs, rfl⟩ := hiso.bijOn.surjOn ht
      exact ⟨s, hs, (hlabel s hs).1 hc⟩
    · rintro ⟨s, hs, hc⟩
      exact ⟨f s, hiso.reachable hs, (hlabel s hs).2 hc⟩
  rw [hused, hused', hsame]

theorem separatorConflict?_copy (w : UniformWriter) : w.separatorConflict? B = w.separatorConflict? A := by
  simp only [separatorConflict?, usesLabel_copy hA hB hiso]

/-- What is written of an automaton without cycles depends on its shape alone. -/
theorem script_copy (w : UniformWriter) {depth : Nat} {W : List Word} (hspells : A.graph.Spells depth W) :
    w.script B = w.script A := by
  obtain ⟨order, hok, horder, hok'⟩ := Automaton.survey_copy hA hB hiso
  rw [script, script, unsupported?_eq, separatorConflict?_copy hA hB hiso, hok, hok']
  cases hconflict : w.separatorConflict? A with
  | error f => rfl
  | ok conflict =>
    cases conflict with
    | some e => rfl
    | none =>
      by_cases hnumbers : w.flags.numbers
      · obtain ⟨counts, hcounts, hcounted⟩ := hA.counts hspells.acyclic
        obtain ⟨counts', hcounts', hcounted'⟩ := hB.counts (hspells.of_iso hiso).acyclic
        have hcount (s : State) (hs : A.graph.Reachable s) : counts'.getD (f s) 0 = counts.getD s 0 := by
          rw [(hspells.of_iso hiso).count_eq hcounted' (hiso.reachable hs), hspells.count_eq hcounted hs,
            hiso.spelled_eq depth hs]
        have hplan := hiso.plan_eq horder.toOrdered (counts.getD · 0) (counts'.getD · 0) hcount
        have hroot : B.graph.root.elim 0 (counts'.getD · 0) = A.graph.root.elim 0 (counts.getD · 0) := by
          rw [hiso.root_eq]
          cases hr : A.graph.root with
          | none => rfl
          | some r => exact hcount r (.root hr)
        simp [hnumbers, hcounts, hcounts', hplan, countWidth, hroot]
      · have hplan := hiso.plan_eq horder.toOrdered (fun _ => 0) (fun _ => 0) fun _ _ => rfl
        simp [hnumbers, hplan]

end

end UniformWriter

/-- A conversion keeps the words, and whatever is written after it is what would have been written before. -/
theorem Writer.Converts.copy {w : Writer} {A : Automaton} {x : Stream} (h : w.Converts A x) (hread : A.Readable)
    {depth : Nat} {W : List Word} (hspells : A.graph.Spells depth W) (hreach : x.WithinReach) :
    x.automaton.Readable ∧ x.automaton.graph.Spells depth W ∧
      ∀ u : UniformWriter, u.script x.automaton = u.script A := by
  obtain ⟨hreadable, f, hiso, -⟩ := (h.restored hread hspells.acyclic hreach).1
  refine ⟨hreadable, hspells.of_iso hiso, ?_⟩
  intro u
  exact u.script_copy hread hreadable hiso hspells

/-- What an automaton comes to when it is written and read again any number of times, each time with any writer, with the
streams on the way, the latest first. -/
inductive Automaton.Copied (A : Automaton) : List Stream → Automaton → Prop
  | start : Copied A [] A
  | convert {B : Automaton} {xs : List Stream} {w : Writer} {x : Stream} :
      Copied A xs B → w.Converts B x → Copied A (x :: xs) x.automaton

theorem Automaton.Copied.keeps {A B : Automaton} {xs : List Stream} (h : A.Copied xs B) (hread : A.Readable) {depth : Nat}
    {W : List Word} (hspells : A.graph.Spells depth W) (hreach : ∀ x ∈ xs, x.WithinReach) :
    B.Readable ∧ B.graph.Spells depth W ∧ ∀ u : UniformWriter, u.script B = u.script A := by
  induction h with
  | start => exact ⟨hread, hspells, fun _ => rfl⟩
  | convert _ hconverts ih =>
    obtain ⟨hlast, hbefore⟩ := List.forall_mem_cons.1 hreach
    obtain ⟨hreadable, hspelled, hscript⟩ := ih hbefore
    obtain ⟨hreadable', hspelled', hscript'⟩ := hconverts.copy hreadable hspelled hlast
    exact ⟨hreadable', hspelled', fun u => (hscript' u).trans (hscript u)⟩

namespace Builder

/-- However often the automaton of some words has been converted, as long as offsets reach all of each stream, it spells
these words, and the uniform layout is written of it as of the automaton that was built. -/
theorem build_copied {W : List Word} {b : RecordBuffer} (hb : build W = .ok b) {xs : List Stream} {B : Automaton}
    (h : b.automaton.Copied xs B) (hreach : ∀ x ∈ xs, x.WithinReach) :
    B.words none = ⟨W, none⟩ ∧ ∀ u : UniformWriter, u.script B = u.script b.automaton := by
  obtain ⟨p, root, rfl, hfinished⟩ := finished_of_build hb
  obtain ⟨depth, hdepth, hspells⟩ := hfinished.spells
  obtain ⟨hread, hspelled, hscript⟩ := h.keeps hfinished.readable hspells hreach
  exact ⟨hread.words_eq hspelled hdepth, hscript⟩

theorem build_copied_twice : ∃ b x y, build [[97, 99], [98, 99]] = .ok b ∧
    (Writer.compact { flags := Flags.ofList [.numbers] }).Converts b.automaton x ∧
    (Writer.uniform {}).Converts x.automaton y ∧ y.automaton.words none = ⟨[[97, 99], [98, 99]], none⟩ := by
  have hrun : (do
      let b ← (build [[97, 99], [98, 99]]).toOption
      let x ← (Writer.compact { flags := Flags.ofList [.numbers] }).convert? b.automaton
      let y ← (Writer.uniform {}).convert? x.automaton
      return (x.byteLength, y.byteLength)) = some (22, 18) := by cbv
  simp only [Option.bind_eq_bind, Option.bind_eq_some_iff, toOption_eq_some, Option.pure_def, Option.some.injEq,
    Prod.mk.injEq] at hrun
  obtain ⟨b, hb, x, hx, y, hy, hsize, hsize'⟩ := hrun
  have hfirst := Writer.converts_of_convert? hx
  have hsecond := Writer.converts_of_convert? hy
  have hreach : ∀ z ∈ [y, x], z.WithinReach := by
    rintro z hz
    rcases List.mem_pair.1 hz with rfl | rfl
    · exact Stream.withinReach_of_byteLength (by omega)
    · exact Stream.withinReach_of_byteLength (by omega)
  have hcopied := (Automaton.Copied.start.convert hfirst).convert hsecond
  exact ⟨b, x, y, hb, hfirst, hsecond, (build_copied hb hcopied hreach).1⟩

end Builder

end WordAutomata
