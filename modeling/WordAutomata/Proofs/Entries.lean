import WordAutomata.Proofs.Order
import WordAutomata.Tool.Run

namespace WordAutomata

/-- The first of equal neighbours is kept. -/
theorem eraseRepsBy_loop_eq {α : Type} (r : α → α → Bool) (a : α) (as acc : List α) :
    List.eraseRepsBy.loop r a as acc = acc.reverse ++ List.eraseRepsBy.loop r a as [] := by
  induction as generalizing a acc with
  | nil => simp [List.eraseRepsBy.loop]
  | cons b as ih =>
    rw [List.eraseRepsBy.loop, List.eraseRepsBy.loop]
    cases r a b with
    | true => exact ih a acc
    | false =>
      dsimp only
      rw [ih b (a :: acc), ih b [a], List.reverse_cons, List.append_assoc]
      rfl

theorem eraseReps_cons_cons (a b : Word) (ws : List Word) :
    (a :: b :: ws).eraseReps = if a = b then (a :: ws).eraseReps else a :: (b :: ws).eraseReps := by
  simp only [List.eraseReps, List.eraseRepsBy, List.eraseRepsBy.loop]
  by_cases h : a = b
  · simp [h]
  · have hne : (a == b) = false := beq_false_of_ne h
    rw [hne, if_neg h]
    exact eraseRepsBy_loop_eq _ b ws [a]

theorem mem_eraseReps {w : Word} {ws : List Word} : w ∈ ws.eraseReps ↔ w ∈ ws := by
  induction ws with
  | nil => exact Iff.rfl
  | cons a ws ih =>
    cases ws with
    | nil => simp [List.eraseReps, List.eraseRepsBy, List.eraseRepsBy.loop]
    | cons b ws =>
      rw [eraseReps_cons_cons]
      by_cases h : a = b
      · subst h
        rw [if_pos rfl, ih]
        simp
      · rw [if_neg h, List.mem_cons, ih, List.mem_cons (a := w) (b := a)]

/-- Words in order, some of them more than once. -/
def Sorted (words : List Word) : Prop := words.Pairwise fun a b => compareWords a b ≠ .gt

theorem precedes_of_ne {a b : Word} (h : compareWords a b ≠ .gt) (hne : a ≠ b) : Precedes a b := by
  rw [← compareWords_eq_lt]
  cases hcompare : compareWords a b with
  | lt => rfl
  | eq => exact absurd (compareWords_eq_eq.1 hcompare) hne
  | gt => exact absurd hcompare h

theorem ascending_eraseReps {ws : List Word} (h : Sorted ws) : Ascending ws.eraseReps := by
  induction ws with
  | nil => exact List.Pairwise.nil
  | cons a ws ih =>
    obtain ⟨hfirst, hrest⟩ := List.pairwise_cons.1 h
    cases ws with
    | nil => exact List.pairwise_singleton _ a
    | cons b ws =>
      rw [eraseReps_cons_cons]
      by_cases hab : a = b
      · subst hab
        rw [if_pos rfl]
        exact ih hrest
      · rw [if_neg hab]
        refine List.pairwise_cons.2 ⟨?_, ih hrest⟩
        intro w hw
        -- Nothing behind a word that differs from its neighbour is the same as it.
        have hpb : Precedes a b := precedes_of_ne (hfirst b (by simp)) hab
        rcases List.mem_cons.1 (mem_eraseReps.1 hw) with rfl | hw
        · exact hpb
        · by_cases hbw : b = w
          · exact hbw ▸ hpb
          · exact hpb.trans (precedes_of_ne ((List.pairwise_cons.1 hrest).1 w hw) hbw)

namespace Tool

theorem splitLines_eq (bs : List UInt8) : splitLines bs = bs.splitOn 0x0a := by
  induction bs with
  | nil => rfl
  | cons b bs ih =>
    rw [splitLines, List.splitOn_cons_eq_if_modifyHead, ih]
    by_cases h : b = 0x0a
    · simp [h]
    · rw [if_neg h, if_neg (by simpa using h)]
      cases hlines : bs.splitOn 0x0a with
      | nil => exact absurd hlines (List.splitOn_ne_nil 0x0a bs)
      | cons l ls => rfl

theorem dropReturn_eq {l w : Word} : dropReturn l = w ↔ l = w ++ [0x0d] ∨ l.getLast? ≠ some 0x0d ∧ l = w := by
  by_cases h : l.getLast? = some 0x0d
  · obtain ⟨l', rfl⟩ := List.getLast?_eq_some_iff.1 h
    simp [dropReturn]
  · have hother : l ≠ w ++ [0x0d] := by
      rintro rfl
      exact h (by simp)
    simp [dropReturn, h, hother]

/-- The lines of a text that are not empty, each without one carriage return at its end. -/
def strippedLines (data : Bytes) : List Word := ((data.toList.splitOn 0x0a).map dropReturn).filter (· ≠ [])

theorem mem_strippedLines {data : Bytes} {w : Word} : w ∈ strippedLines data ↔
    w ≠ [] ∧ ∃ l ∈ data.toList.splitOn 0x0a, l = w ++ [0x0d] ∨ l.getLast? ≠ some 0x0d ∧ l = w := by
  simp only [strippedLines, List.mem_filter, List.mem_map, dropReturn_eq, decide_eq_true_eq]
  exact And.comm

theorem entries_eq (data : Bytes) : entries data = strippedLines data := by
  rw [entries, splitLines_eq, strippedLines]

theorem mem_sortEntries {w : Word} {ws : List Word} : w ∈ sortEntries ws ↔ w ∈ ws := by
  rw [sortEntries, mem_eraseReps, List.mem_mergeSort]

theorem ascending_sortEntries (ws : List Word) : Ascending (sortEntries ws) := by
  apply ascending_eraseReps
  have hle (a b : Word) : (compareWords a b != .gt) = (compareWords a b).isLE := by
    cases compareWords a b <;> rfl
  have htrans (a b c : Word) (hab : (compareWords a b).isLE) (hbc : (compareWords b c).isLE) :
      (compareWords a c).isLE := Std.TransCmp.isLE_trans hab hbc
  have htotal (a b : Word) : (compareWords a b).isLE || (compareWords b a).isLE := by
    have hflip : (compareWords a b).isGE = (compareWords b a).isLE := Std.OrientedCmp.isGE_eq_isLE
    rw [← hflip]
    cases compareWords a b <;> rfl
  simp only [hle]
  refine (List.pairwise_mergeSort htrans htotal ws).imp ?_
  intro a b hab
  simpa [← hle] using hab

end Tool

end WordAutomata
