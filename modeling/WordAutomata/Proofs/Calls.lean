import WordAutomata.Proofs.Comparison
import WordAutomata.Proofs.Builder

namespace WordAutomata

/-- Freezes one state after the other, and keeps what it has come to when there is no room for one. That state is lost. -/
def freezeEach (pool : Pool) (child : UInt32) : Nat → List Frame → Option BuildError × UInt32 × Pool × List Frame
  | n + 1, f :: frames =>
    match pool.freeze (f.records child) with
    | .ok (address, pool) => freezeEach pool address n frames
    | .error e => (some e, 0, pool, frames)
  | _, frames => (none, child, pool, frames)

theorem freezeTail_eq_freezeEach (pool : Pool) (child : UInt32) (n : Nat) (frames : List Frame) :
    freezeTail pool child n frames =
      match freezeEach pool child n frames with
      | (none, x) => .ok x
      | (some e, _) => .error e := by
  induction n generalizing pool child frames with
  | zero => rfl
  | succ n ih =>
    cases frames with
    | nil => rfl
    | cons f frames =>
      rw [freezeTail, freezeEach]
      cases pool.freeze (f.records child) with
      | error e => rfl
      | ok x => exact ih x.2 x.1 frames

/-- Freezing fails for want of room only. -/
theorem freezeTail_error {pool : Pool} {child : UInt32} {n : Nat} {frames : List Frame} {e : BuildError}
    (h : freezeTail pool child n frames = .error e) : e = .capacityExceeded := by
  induction n generalizing pool child frames with
  | zero => cases h
  | succ n ih =>
    cases frames with
    | nil => cases h
    | cons f frames =>
      rw [freezeTail, bind_eq_error] at h
      rcases h with h | ⟨x, -, h⟩
      · rw [Pool.freeze] at h
        split at h
        · cases h
        · split at h
          · cases h
          · exact (Except.error.inj h).symm
      · exact ih h

namespace Builder

/-- What is wrong with a word as the next entry, by some comparison. -/
def refuseBy (order : Word → Word → Ordering) (previous : Option Word) (w : Word) : Option BuildError :=
  if w = [] then some .emptyEntry
  else match previous with
    | none => none
    | some p => match order p w with
      | .lt => none
      | .eq => some (.duplicateEntry w)
      | .gt => some (.unsortedInput p w)

/-- A call with a word: its answer, and the builder that it leaves. -/
def call (c : Comparison) (b : Builder) (w : Word) : Option BuildError × Builder :=
  match refuseBy c.order b.previous w with
  | some e => (some e, b)
  | none =>
    let common := commonLength (b.previous.getD []) w
    match freezeEach b.pool 0 (b.frames.length - (common + 1)) b.frames with
    | (some e, _, pool, frames) => (some e, { b with pool, frames })
    | (none, child, pool, frames) =>
      (none, { pool, frames := extend common w child frames, previous := some w, sequences := b.sequences + 1 })

/-- The answers to one call after the other. -/
def answers (c : Comparison) : Builder → List Word → List (Option BuildError)
  | _, [] => []
  | b, w :: ws => (b.call c w).1 :: answers c (b.call c w).2 ws

/-- The builder that one call after the other leaves. -/
def after (c : Comparison) : Builder → List Word → Builder
  | b, [] => b
  | b, w :: ws => after c (b.call c w).2 ws

/-- The words that are taken if `previous` is the one taken last: those with a label that come after the one before. -/
def accepted : Option Word → List Word → List Word
  | _, [] => []
  | previous, w :: ws =>
    if w ≠ [] ∧ ∀ p ∈ previous, Precedes p w then w :: accepted (some w) ws else accepted previous ws

/-- What a call may answer, by the word and the one taken last. -/
structure Classified (previous : Option Word) (w : Word) (answer : Option BuildError) : Prop where
  empty_iff : answer = some .emptyEntry ↔ w = []
  duplicate_iff : ∀ entry, answer = some (.duplicateEntry entry) ↔ w = entry ∧ w ≠ [] ∧ previous = some w
  unsorted_iff : ∀ p current, answer = some (.unsortedInput p current) ↔
    previous = some p ∧ w = current ∧ w ≠ [] ∧ Precedes w p
  /-- Any other word is taken, if there is room. -/
  taken_iff : answer = none ∨ answer = some .capacityExceeded ↔ w ≠ [] ∧ ∀ p ∈ previous, Precedes p w

variable {c : Comparison} {b : Builder} {w : Word}

theorem refuseBy_order (c : Comparison) (previous : Option Word) (w : Word) :
    refuseBy c.order previous w = refuse? previous w := by
  rw [c.order_eq]
  rfl

/-- What a call answers and what it leaves is what adding the word comes to. -/
theorem add_eq_call (c : Comparison) (b : Builder) (w : Word) :
    b.add w = match b.call c w with
      | (none, b') => .ok b'
      | (some e, _) => .error e := by
  rw [add, call, refuseBy_order]
  cases refuse? b.previous w with
  | some e => rfl
  | none =>
    simp only [freezeTail_eq_freezeEach]
    rcases freezeEach b.pool 0 _ b.frames with ⟨_ | e, child, pool, frames⟩
    · rfl
    · rfl

theorem call_eq_none {b' : Builder} : b.call c w = (none, b') ↔ b.add w = .ok b' := by
  rw [add_eq_call c]
  rcases b.call c w with ⟨_ | e, b''⟩ <;> simp

theorem add_eq_error_of_call {e : BuildError} (h : (b.call c w).1 = some e) : b.add w = .error e := by
  rw [add_eq_call c]
  revert h
  rcases b.call c w with ⟨_ | f, b'⟩
  · exact fun h => nomatch h
  · exact fun h => congrArg _ (Option.some.inj h)

/-- A word that is not refused is added, unless there is no room. -/
theorem add_error {e : BuildError} (h : b.add w = .error e) (hrefuse : refuse? b.previous w = none) :
    e = .capacityExceeded := by
  rw [add, hrefuse] at h
  rcases bind_eq_error.1 h with h | ⟨x, -, h⟩
  · exact freezeTail_error h
  · cases h

/-- A call refuses the word and changes nothing, or has no room, or adds the word. -/
theorem call_cases (c : Comparison) (b : Builder) (w : Word) :
    (∃ e, refuse? b.previous w = some e ∧ b.call c w = (some e, b)) ∨
    refuse? b.previous w = none ∧
      ((b.call c w).1 = some .capacityExceeded ∨ ∃ b', b.call c w = (none, b') ∧ b.add w = .ok b') := by
  cases hrefuse : refuse? b.previous w with
  | some e => exact .inl ⟨e, rfl, by rw [call, refuseBy_order, hrefuse]⟩
  | none =>
    right
    refine ⟨rfl, ?_⟩
    rcases hcall : b.call c w with ⟨_ | e, b'⟩
    · exact .inr ⟨b', rfl, call_eq_none.1 hcall⟩
    · have herror : b.add w = .error e := add_eq_error_of_call (c := c) (by rw [hcall])
      exact .inl (congrArg some (add_error herror hrefuse))

/-- What is refused, and why. -/
theorem classified_refuse? (previous : Option Word) (w : Word) : Classified previous w (refuse? previous w) := by
  by_cases hw : w = []
  · constructor <;> simp [refuse?, hw]
  · cases previous with
    | none => constructor <;> simp [refuse?, hw]
    | some p =>
      have heq : p = w ↔ compareWords p w = .eq := compareWords_eq_eq.symm
      have hlt : Precedes p w ↔ compareWords p w = .lt := compareWords_eq_lt.symm
      have hgt : Precedes w p ↔ compareWords p w = .gt := compareWords_eq_gt.symm
      cases hcompare : compareWords p w with
      | lt => constructor <;> simp [refuse?, hw, heq, hlt, hgt, hcompare]
      | eq => constructor <;> simp [refuse?, hw, heq, hlt, hgt, hcompare]
      | gt =>
        have hafter : Precedes w p := hgt.2 hcompare
        constructor
        · simp [refuse?, hw, hcompare]
        · simp [refuse?, hw, hcompare, heq]
        · intro q current
          have hrefuse : refuse? (some p) w = some (.unsortedInput p w) := by simp [refuse?, hw, hcompare]
          rw [hrefuse, Option.some.injEq, BuildError.unsortedInput.injEq, Option.some.injEq]
          constructor
          · rintro ⟨rfl, rfl⟩
            exact ⟨rfl, rfl, hw, hafter⟩
          · rintro ⟨rfl, rfl, -⟩
            exact ⟨rfl, rfl⟩
        · simp [refuse?, hw, hcompare, hlt]

/-- Whether there is room is no part of it. -/
theorem Classified.full {previous : Option Word} {w : Word} (h : Classified previous w none) :
    Classified previous w (some .capacityExceeded) := by
  obtain ⟨hempty, hduplicate, hunsorted, htaken⟩ := h
  refine ⟨?_, ?_, ?_, ?_⟩
  · simpa using hempty
  · simpa using hduplicate
  · simpa using hunsorted
  · simpa using htaken

theorem classified_call (c : Comparison) (b : Builder) (w : Word) : Classified b.previous w (b.call c w).1 := by
  have h := classified_refuse? b.previous w
  rcases call_cases c b w with ⟨e, hrefuse, hcall⟩ | ⟨hrefuse, hfull | ⟨b', hcall, -⟩⟩
  · rw [hcall, ← hrefuse]
    exact h
  · rw [hrefuse] at h
    rw [hfull]
    exact h.full
  · rw [hrefuse] at h
    rw [hcall]
    exact h

/-- Only words that are taken change the builder. -/
theorem after_eq {ws : List Word} (hroom : some .capacityExceeded ∉ answers c b ws) :
    (accepted b.previous ws).foldlM add b = .ok (after c b ws) := by
  induction ws generalizing b with
  | nil => rfl
  | cons w ws ih =>
    rw [answers, List.mem_cons, not_or] at hroom
    obtain ⟨hfirst, hrest⟩ := hroom
    rw [accepted, after]
    rcases call_cases c b w with ⟨e, hrefuse, hcall⟩ | ⟨hrefuse, hfull | ⟨b', hcall, hadd⟩⟩
    · have hnot : ¬(w ≠ [] ∧ ∀ p ∈ b.previous, Precedes p w) := by
        rw [← refuse?_eq_none, hrefuse]
        simp
      rw [hcall] at hrest ⊢
      rw [if_neg hnot]
      exact ih hrest
    · exact absurd hfull.symm hfirst
    · rw [hcall] at hrest ⊢
      rw [if_pos (refuse?_eq_none.1 hrefuse), List.foldlM_cons, hadd, ok_bind, ← (add_eq_ok hadd).2]
      exact ih hrest

theorem after_of_foldlM {ws : List Word} {b' : Builder} (h : ws.foldlM add b = .ok b') : after c b ws = b' := by
  induction ws generalizing b with
  | nil => exact Except.ok.inj h
  | cons w ws ih =>
    obtain ⟨b1, hadd, hrest⟩ := bind_eq_ok.1 (List.foldlM_cons.symm.trans h)
    rw [after, call_eq_none.2 hadd]
    exact ih hrest

/-- There is room for a word unless the states of all words fill the address space. -/
theorem size_of_full {words : List Word} {b : Builder} (h : words.foldlM add empty = .ok b) {w : Word}
    (hrefuse : refuse? b.previous w = none) (hfull : b.add w = .error .capacityExceeded) :
    2 ^ 32 ≤ Record.size * (1 + (neededArcs (words ++ [w])).ncard) := by
  obtain ⟨hnonempty, hasc⟩ := ascending_of_foldlM h
  obtain ⟨hw, hlast⟩ := refuse?_eq_none.1 hrefuse
  rw [(built_of_foldlM h).previous_eq] at hlast
  have hasc' : Ascending (words ++ [w]) := Ascending.concat hasc hlast
  have hnonempty' : ∀ v ∈ words ++ [w], v ≠ [] := by
    intro v hv
    rcases List.mem_append.1 hv with hv | hv
    · exact hnonempty v hv
    · exact List.mem_singleton.1 hv ▸ hw
  have herror : (words ++ [w]).foldlM add empty = .error .capacityExceeded := by
    simp [List.foldlM_append, h, hfull]
  rcases (built_empty _).foldlM_cases hasc' hnonempty' rfl with ⟨b', hok, -⟩ | ⟨-, hsize⟩
  · cases herror.symm.trans hok
  · exact hsize

/-- Of any calls, as long as there is room, only those matter whose word is taken: the builder is the one that these calls
alone lead to, and so is what it tells and what it is completed to. What the next call answers depends on its word and on
the word taken last, and a call that is refused changes nothing. -/
theorem refused_without_trace (c : Comparison) {ws : List Word} (hroom : some .capacityExceeded ∉ answers c empty ws) :
    let b := after c empty ws
    let words := accepted none ws
    words.foldlM add empty = .ok b ∧ after c empty words = b ∧ build words = b.complete ∧
      ∀ w, Classified words.getLast? w (b.call c w).1 ∧
        (∀ e, (b.call c w).1 = some e → e ≠ .capacityExceeded → (b.call c w).2 = b) ∧
        ((b.call c w).1 = some .capacityExceeded → 2 ^ 32 ≤ Record.size * (1 + (neededArcs (words ++ [w])).ncard)) := by
  intro b words
  have hrun : words.foldlM add empty = .ok b := after_eq hroom
  refine ⟨hrun, after_of_foldlM hrun, by rw [build, hrun, ok_bind], ?_⟩
  intro w
  refine ⟨?_, ?_, ?_⟩
  · rw [← (built_of_foldlM hrun).previous_eq]
    exact classified_call c b w
  · intro e he hne
    rcases call_cases c b w with ⟨f, -, hcall⟩ | ⟨-, hfull | ⟨b', hcall, -⟩⟩
    · rw [hcall]
    · exact absurd (Option.some.inj (he.symm.trans hfull)) hne
    · rw [hcall] at he
      cases he
  · intro hfull
    have hrefuse := refuse?_eq_none.2 ((classified_call c b w).taken_iff.1 (.inr hfull))
    exact size_of_full hrun hrefuse (add_eq_error_of_call hfull)

/-- One call out of order, one without a label and one repeated, between two that count. -/
theorem refused_without_trace_between :
    answers .wide empty [[97, 99], [97], [], [97, 99], [98, 99]] =
        [none, some (.unsortedInput [97, 99] [97]), some .emptyEntry, some (.duplicateEntry [97, 99]), none] ∧
      build [[97, 99], [98, 99]] = (after .wide empty [[97, 99], [97], [], [97, 99], [98, 99]]).complete := by
  have hanswers : answers .wide empty [[97, 99], [97], [], [97, 99], [98, 99]] =
      [none, some (.unsortedInput [97, 99] [97]), some .emptyEntry, some (.duplicateEntry [97, 99]), none] := by cbv
  have hroom : some .capacityExceeded ∉ answers .wide empty [[97, 99], [97], [], [97, 99], [98, 99]] := by
    rw [hanswers]
    decide
  have haccepted : accepted none [[97, 99], [97], [], [97, 99], [98, 99]] = [[97, 99], [98, 99]] := by decide
  obtain ⟨-, -, hbuild, -⟩ := refused_without_trace .wide hroom
  exact ⟨hanswers, haccepted ▸ hbuild⟩

end Builder

end WordAutomata
