import Mathlib
import WordAutomata.Layout.Record
import WordAutomata.Proofs.Drawing
import WordAutomata.Proofs.Visitor

namespace WordAutomata.Dot

/-- The lines of a state and its arcs. -/
def stateLines (A : Automaton) (s : State) : Readout String :=
  let arcs := (A.arcs s).items.map fun a => Readout.ofRead (arcLine s <$> A.transition a)
  .append (.ofRead (stateLine s <$> A.storedCount s)) (.append (.concat arcs) ⟨[], (A.arcs s).fault⟩)

def rootLines (A : Automaton) : Readout String :=
  match A.root with
  | .error f => .fail f
  | .ok r => ⟨r.toList.map rootLine, none⟩

/-- The lines of the drawing. -/
def lines (A : Automaton) : Readout String :=
  .append ⟨opening, none⟩ (.append (rootLines A) (.append (A.collect (stateLines A) none) ⟨[closing], none⟩))

theorem writeState_eq (A : Automaton) (s : State) : writeState A s = (stateLines A s).allM putLine := by
  rw [stateLines, Readout.allM_append, Readout.allM_append, Readout.allM_concat, allM_map, Readout.allM_ofRead_map]
  simp only [Readout.allM_ofRead_map]
  rfl

theorem writeAll_eq (A : Automaton) : writeAll A = (lines A).allM putLine := by
  have hroot : (rootLines A).allM putLine = (do (← A.root).toList.allM fun r => putLine (rootLine r)) := by
    rw [rootLines]
    cases A.root with
    | error f => rfl
    | ok r =>
      rw [Readout.allM_items, allM_map]
      rfl
  have hclosing : [closing].allM putLine = putLine closing := by
    rw [allM_cons]
    exact andM_true _
  rw [lines, Readout.allM_append, Readout.allM_append, Readout.allM_append, hroot, ← Automaton.visit_eq (writeState_eq A),
    Readout.allM_items, Readout.allM_items, hclosing]
  rfl

theorem put_unlimited (bs : List UInt8) (written : Bytes) :
    (put bs).run.run ⟨written, none⟩ = (.ok true, ⟨written ++ bs, none⟩) := rfl

theorem put_limited (bs : List UInt8) (written : Bytes) (n : Nat) : (put bs).run.run ⟨written, some n⟩ =
    (.ok (bs.length ≤ n), ⟨written ++ bs.take n, some (n - bs.length)⟩) := rfl

theorem append_append (written : Bytes) (bs cs : List UInt8) : written ++ (bs ++ cs) = written ++ bs ++ cs := by
  simp [← Array.toList_inj]

theorem put_nil : put [] = pure true := by
  apply visit_ext
  intro ⟨written, room⟩
  cases room with
  | none =>
    rw [put_unlimited, Array.appendList_nil]
    rfl
  | some n =>
    rw [put_limited, List.take_nil, Array.appendList_nil]
    simp
    rfl

theorem put_append (bs cs : List UInt8) : put (bs ++ cs) = (put bs <&&> put cs) := by
  apply visit_ext
  intro ⟨written, room⟩
  rw [run_andM]
  cases room with
  | none => simp only [put_unlimited, append_append]
  | some n =>
    rw [put_limited, put_limited, List.length_append]
    by_cases hle : bs.length ≤ n
    · have hcs : bs.length + cs.length ≤ n ↔ cs.length ≤ n - bs.length := by omega
      simp only [hle, decide_true, put_limited, hcs, Nat.sub_add_eq]
      rw [List.take_append, append_append, List.take_of_length_le hle]
    · have hlong : ¬bs.length + cs.length ≤ n := by omega
      have hroom : n - (bs.length + cs.length) = n - bs.length := by omega
      simp only [hle, hlong, decide_false, hroom]
      rw [List.take_append_of_le_length (by omega)]

theorem allM_putLine (ls : List String) : ls.allM putLine = put (unlines ls).toUTF8.toList := by
  induction ls with
  | nil =>
    have hempty : (unlines []).toUTF8.toList = [] := by
      rw [toList_eq_data]
      rfl
    rw [hempty, put_nil]
    rfl
  | cons l ls ih =>
    have hcons : unlines (l :: ls) = (l ++ "\n") ++ unlines ls := String.join_cons
    rw [allM_cons, ih, hcons, toUTF8_append, put_append]
    rfl

/-- What a full output comes to: its lines, and a fault behind them. -/
theorem outcome_allM (r : Readout String) (room : Option Nat) : Outcome.of ((r.allM putLine).run.run ⟨#[], room⟩) =
    if room.any (· < (unlines r.items).toUTF8.toList.length) then
      ⟨(unlines r.items).toUTF8.toList.take (room.getD 0), .failed⟩
    else ⟨(unlines r.items).toUTF8.toList, r.fault.elim .complete .faulty⟩ := by
  obtain ⟨items, fault⟩ := r
  generalize hbytes : (unlines items).toUTF8.toList = bs
  rw [Readout.allM, run_andM, allM_putLine, hbytes]
  have hwritten (bs : List UInt8) : ((#[] : Bytes) ++ bs).toList = bs := by simp
  cases room with
  | none =>
    rw [put_unlimited]
    cases fault <;> exact congrArg (Outcome.mk · _) (hwritten bs)
  | some n =>
    rw [put_limited]
    by_cases hlt : n < bs.length
    · have hnot : ¬bs.length ≤ n := Nat.not_le.2 hlt
      simp only [Option.any_some, hlt, hnot, decide_true, decide_false, if_true]
      exact congrArg (Outcome.mk · _) (hwritten _)
    · have hle : bs.length ≤ n := Nat.le_of_not_lt hlt
      simp only [Option.any_some, hlt, hle, decide_true, decide_false, List.take_of_length_le hle]
      cases fault <;> exact congrArg (Outcome.mk · _) (hwritten bs)

/-- Without a limit, everything that can be told is written. -/
theorem write_unlimited (A : Automaton) : write A none =
    ⟨(unlines (lines A).items).toUTF8.toList, (lines A).fault.elim .complete .faulty⟩ := by
  rw [write, writeAll_eq, outcome_allM]
  rfl

theorem write_limited (A : Automaton) (n : Nat) : write A (some n) =
    if n < (write A none).written.length then ⟨(write A none).written.take n, .failed⟩ else write A none := by
  rw [write_unlimited, write, writeAll_eq, outcome_allM]
  simp

theorem concat_ofRead {α β : Type} {g : α → Read β} {f : β → String} {as : List α} {bs : List β} (h : as.mapM g = .ok bs) :
    Readout.concat (as.map fun a => .ofRead (f <$> g a)) = ⟨bs.map f, none⟩ := by
  induction as generalizing bs with
  | nil =>
    obtain rfl : [] = bs := Except.ok.inj h
    rfl
  | cons a as ih =>
    rw [List.mapM_cons] at h
    obtain ⟨b, hb, h⟩ := bind_eq_ok.1 h
    obtain ⟨bs', hbs, h⟩ := bind_eq_ok.1 h
    obtain rfl := Except.ok.inj h
    show Readout.append (.ofRead (f <$> g a)) (.concat (as.map fun a => .ofRead (f <$> g a))) = _
    rw [ih hbs, hb]
    rfl

section

variable {A : Automaton} {s : State}

theorem stateLines_eq {count : Option Nat} {ts : List Transition} (hcount : A.storedCount s = .ok count)
    (hrow : A.row s = .ok ts) : stateLines A s = ⟨(Drawn.mk s count ts).lines, none⟩ := by
  obtain ⟨as, has, hts⟩ := bind_eq_ok.1 hrow
  rw [stateLines, hcount, Readout.all_eq_ok.1 has, concat_ofRead hts]
  simp [Readout.ofRead, Readout.one, Readout.append, Drawn.lines]

theorem exists_storedCount (h : (stateLines A s).fault = none) : ∃ count, A.storedCount s = .ok count := by
  cases hcount : A.storedCount s with
  | error f => simp [stateLines, hcount, Readout.ofRead, Readout.fail, Readout.append] at h
  | ok count => exact ⟨count, rfl⟩

end

/-- What a drawing shows of a state that can be read. -/
def depict (A : Automaton) (s : State) : Drawn := ⟨s, (A.storedCount s).toOption.join, A.graph.row s⟩

theorem rootLines_eq {A : Automaton} (hA : A.Readable) : rootLines A = ⟨A.graph.root.toList.map rootLine, none⟩ := by
  rw [rootLines, hA.root]

section

variable {A : Automaton} (hA : A.Readable) {order : List State} (horder : A.preorder none = ⟨order, none⟩)

include hA horder

theorem reachable_of_mem {s : State} (hs : s ∈ order) : A.graph.Reachable s := by
  obtain ⟨order', horder', hsurvey, -⟩ := hA.preorder
  obtain rfl : order = order' := congrArg Readout.items (horder.symm.trans horder')
  exact (hsurvey.mem_iff s).1 hs

theorem lines_of_counts (hcounts : ∀ s ∈ order, ∃ count, A.storedCount s = .ok count) :
    lines A = ⟨drawing A.graph.root (order.map (depict A)), none⟩ := by
  have hstates : ∀ s ∈ order, stateLines A s = ⟨(depict A s).lines, none⟩ := by
    intro s hs
    obtain ⟨count, hcount⟩ := hcounts s hs
    rw [stateLines_eq hcount (hA.row (reachable_of_mem hA horder hs)), depict, hcount]
    rfl
  rw [lines, rootLines_eq hA, Automaton.collect_flatMap horder hstates, drawing, List.flatMap_map]
  rfl

theorem counts_of_lines (h : (lines A).fault = none) : ∀ s ∈ order, ∃ count, A.storedCount s = .ok count := by
  intro s hs
  cases hcollect : A.collect (stateLines A) none with
  | mk items fault =>
    cases fault with
    | some f => simp [lines, rootLines_eq hA, hcollect, Readout.append] at h
    | none => exact exists_storedCount (Automaton.collect_faultless horder hcollect s hs)

end

/-- The bytes of a drawing tell its root and its states. -/
theorem bytes_drawing_injective {r r' : Option State} {ds es : List Drawn}
    (h : (unlines (drawing r ds)).toUTF8.toList = (unlines (drawing r' es)).toUTF8.toList) : r = r' ∧ ds = es := by
  apply drawing_injective
  exact unlines_injective (newline_notMem_drawing r ds) (newline_notMem_drawing r' es) (toUTF8_injective h)

section

variable {A : Automaton}

theorem complete_iff : (write A none).ending = .complete ↔ (lines A).fault = none := by
  rw [write_unlimited]
  cases (lines A).fault <;> simp

theorem exists_drawing (hA : A.Readable) {text : List UInt8} (h : write A none = ⟨text, .complete⟩) :
    ∃ order, A.preorder none = ⟨order, none⟩ ∧ A.Surveyed order ∧
      text = (unlines (drawing A.graph.root (order.map (depict A)))).toUTF8.toList ∧
      ∀ s ∈ order, A.storedCount s = .ok (depict A s).count ∧ A.row s = .ok (depict A s).row := by
  obtain ⟨order, horder, hsurvey, -⟩ := hA.preorder
  have hcounts := counts_of_lines hA horder (complete_iff.1 (congrArg Outcome.ending h))
  refine ⟨order, horder, hsurvey, ?_, ?_⟩
  · have htext := congrArg Outcome.written h
    rw [write_unlimited, lines_of_counts hA horder hcounts] at htext
    exact htext.symm
  · intro s hs
    obtain ⟨count, hcount⟩ := hcounts s hs
    rw [depict, hcount]
    exact ⟨rfl, hA.row ((hsurvey.mem_iff s).1 hs)⟩

end

/-- A drawing tells the root, the states in the order of a walk, and the count and the arcs of each. An output that fails
has been given what fits of it. -/
theorem write_lossless {A : Automaton} (hA : A.Readable) :
    ((write A none).ending = .complete ↔ ∀ s, A.graph.Reachable s → ∃ count, A.storedCount s = .ok count) ∧
      (∀ (B : Automaton) (text : List UInt8), B.Readable → write A none = ⟨text, .complete⟩ →
        write B none = ⟨text, .complete⟩ → A.root = B.root ∧
          ∃ order, A.preorder none = ⟨order, none⟩ ∧ B.preorder none = ⟨order, none⟩ ∧ A.Surveyed order ∧
            B.Surveyed order ∧ ∀ s ∈ order, ∃ count ts, A.storedCount s = .ok count ∧ B.storedCount s = .ok count ∧
              A.row s = .ok ts ∧ B.row s = .ok ts) ∧
      ∀ n, write A (some n) = if n < (write A none).written.length then ⟨(write A none).written.take n, .failed⟩
        else write A none := by
  refine ⟨?_, ?_, write_limited A⟩
  · obtain ⟨order, horder, hsurvey, -⟩ := hA.preorder
    rw [complete_iff]
    constructor
    · intro h s hs
      exact counts_of_lines hA horder h s ((hsurvey.mem_iff s).2 hs)
    · intro h
      rw [lines_of_counts hA horder fun s hs => h s ((hsurvey.mem_iff s).1 hs)]
  · intro B text hB hwriteA hwriteB
    obtain ⟨order, horderA, hsurveyA, htextA, hfoundA⟩ := exists_drawing hA hwriteA
    obtain ⟨order', horderB, hsurveyB, htextB, hfoundB⟩ := exists_drawing hB hwriteB
    obtain ⟨hroot, hdrawn⟩ := bytes_drawing_injective (htextA.symm.trans htextB)
    have hstates := congrArg (List.map Drawn.state) hdrawn
    rw [List.map_map, List.map_map] at hstates
    obtain rfl : order = order' := by simpa [Function.comp_def, depict] using hstates
    refine ⟨by rw [hA.root, hB.root, hroot], order, horderA, horderB, hsurveyA, hsurveyB, ?_⟩
    intro s hs
    have hsame := List.map_inj_left.1 hdrawn s hs
    obtain ⟨hcountA, hrowA⟩ := hfoundA s hs
    obtain ⟨hcountB, hrowB⟩ := hfoundB s hs
    rw [← hsame] at hcountB hrowB
    exact ⟨_, _, hcountA, hcountB, hrowA, hrowB⟩

/-- A drawing depends on nothing else. -/
theorem lines_congr {A B : Automaton} (hA : A.Readable) (hB : B.Readable) (hroot : A.root = B.root) {order : List State}
    (horderA : A.preorder none = ⟨order, none⟩) (horderB : B.preorder none = ⟨order, none⟩)
    (hsame : ∀ s ∈ order, ∃ count, A.storedCount s = .ok count ∧ B.storedCount s = .ok count ∧ A.row s = B.row s) :
    lines A = lines B := by
  have hcountsA : ∀ s ∈ order, ∃ count, A.storedCount s = .ok count := fun s hs => (hsame s hs).imp fun _ h => h.1
  have hcountsB : ∀ s ∈ order, ∃ count, B.storedCount s = .ok count := fun s hs => (hsame s hs).imp fun _ h => h.2.1
  have hroots : A.graph.root = B.graph.root := by simp only [Automaton.graph, hroot]
  have hdrawn : order.map (depict A) = order.map (depict B) := by
    apply List.map_congr_left
    intro s hs
    obtain ⟨count, hcountA, hcountB, hrow⟩ := hsame s hs
    simp only [depict, Automaton.graph, hcountA, hcountB, hrow]
  rw [lines_of_counts hA horderA hcountsA, lines_of_counts hB horderB hcountsB, hroots, hdrawn]

/-- Records that no path leads to are not drawn. An output of four bytes is given the first four. -/
theorem write_lossless_unreached : ∃ (b b' : RecordBuffer) (text : List UInt8), b.data.size < b'.data.size ∧
    b.automaton.Readable ∧ b'.automaton.Readable ∧ write b.automaton none = ⟨text, .complete⟩ ∧
    write b'.automaton none = ⟨text, .complete⟩ ∧ b'.automaton.preorder none = ⟨[⟨6⟩, ⟨18⟩], none⟩ ∧
    b'.automaton.row ⟨18⟩ = .ok [⟨99, true, some ⟨6⟩⟩] ∧ text.take 4 = [100, 105, 103, 114] ∧
    write b.automaton (some 4) = ⟨text.take 4, .failed⟩ := by
  obtain ⟨b, hb⟩ : ∃ b : RecordBuffer, b = ⟨#[1, 0, 0, 0, 0, 6, 0, 97, 0, 0, 0, 18, 3, 45, 0, 0, 0, 0, 3, 99, 0, 0, 0, 6]⟩ :=
    ⟨_, rfl⟩
  obtain ⟨b', hb'⟩ : ∃ b : RecordBuffer, b = ⟨#[1, 7, 0, 0, 0, 6, 0, 97, 0, 0, 0, 18, 3, 45, 0, 0, 0, 0, 3, 99, 0, 0, 0, 6,
    3, 98, 0, 0, 0, 0]⟩ := ⟨_, rfl⟩
  have hrun : (b.automaton.survey, b.automaton.root, b.automaton.row ⟨6⟩, b.automaton.row ⟨18⟩) =
      (.ok [⟨6⟩, ⟨18⟩], .ok (some ⟨6⟩), .ok [⟨97, false, some ⟨18⟩⟩, ⟨45, true, none⟩], .ok [⟨99, true, some ⟨6⟩⟩]) := by
    rw [hb]
    cbv
  have hrun' : (b'.automaton.survey, b'.automaton.root, b'.automaton.row ⟨6⟩, b'.automaton.row ⟨18⟩) =
      (.ok [⟨6⟩, ⟨18⟩], .ok (some ⟨6⟩), .ok [⟨97, false, some ⟨18⟩⟩, ⟨45, true, none⟩], .ok [⟨99, true, some ⟨6⟩⟩]) := by
    rw [hb']
    cbv
  have hfirst : write b.automaton (some 4) = ⟨[100, 105, 103, 114], .failed⟩ := by
    rw [hb]
    cbv
  simp only [Prod.mk.injEq] at hrun hrun'
  obtain ⟨hsurvey, hroot, hrow, hlast⟩ := hrun
  obtain ⟨hsurvey', hroot', hrow', hlast'⟩ := hrun'
  have hread := Automaton.readable_of_survey hsurvey
  have hread' := Automaton.readable_of_survey hsurvey'
  obtain ⟨hcomplete, hsame, hcut⟩ := write_lossless hread
  have hending := hcomplete.2 fun _ _ => ⟨none, rfl⟩
  have hending' := (write_lossless hread').1.2 fun _ _ => ⟨none, rfl⟩
  have htext : (write b'.automaton none).written = (write b.automaton none).written := by
    rw [write_unlimited, write_unlimited, lines_congr hread hread' (hroot.trans hroot'.symm)
      (Automaton.preorder_of_survey hsurvey).1 (Automaton.preorder_of_survey hsurvey').1]
    simp only [List.forall_mem_cons]
    exact ⟨⟨none, rfl, rfl, hrow.trans hrow'.symm⟩, ⟨none, rfl, rfl, hlast.trans hlast'.symm⟩, by simp⟩
  have hwrite : write b.automaton none = ⟨(write b.automaton none).written, .complete⟩ := by rw [← hending]
  have hwrite' : write b'.automaton none = ⟨(write b.automaton none).written, .complete⟩ := by rw [← htext, ← hending']
  obtain ⟨-, order, horder, horder', -⟩ := hsame b'.automaton _ hread' hwrite hwrite'
  obtain rfl : [⟨6⟩, ⟨18⟩] = order := congrArg Readout.items ((Automaton.preorder_of_survey hsurvey).1.symm.trans horder)
  have hfour := hcut 4
  rw [hfirst] at hfour
  split at hfour
  · have htake := congrArg Outcome.written hfour
    refine ⟨b, b', _, by rw [hb, hb']; decide, hread, hread', hwrite, hwrite', horder', hlast', htake.symm, ?_⟩
    rw [hfirst, hfour]
  · rw [hwrite] at hfour
    cases congrArg Outcome.ending hfour

end WordAutomata.Dot
