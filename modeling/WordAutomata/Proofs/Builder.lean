import WordAutomata.Proofs.Opened
import WordAutomata.Proofs.Reading

namespace WordAutomata

theorem length_le_commonLength {u a b : Word} (ha : u <+: a) (hb : u <+: b) : u.length ≤ commonLength a b := by
  induction u generalizing a b with
  | nil => simp
  | cons x u ih =>
    obtain ⟨a, rfl⟩ := ha
    obtain ⟨b, rfl⟩ := hb
    have := ih (List.prefix_append u a) (List.prefix_append u b)
    simpa [commonLength] using this

namespace Frame

theorem length_path (frames : List Frame) : (path frames).length = frames.length := by
  simp [path]

theorem path_drop (frames : List Frame) (n : Nat) : path (frames.drop n) = (path frames).take (frames.length - n) := by
  simp [path, List.map_drop, List.reverse_drop]

theorem path_openPath (w : Word) (frames : List Frame) : path (openPath w frames) = path frames ++ w := by
  induction w generalizing frames with
  | nil => simp [openPath]
  | cons c w ih =>
    rw [openPath, ih, path_cons]
    simp

theorem wordsAlong_openPath (stored : UInt32 → List Word) (w : Word) (frames : List Frame) :
    wordsAlong stored (openPath w frames) [] = wordsAlong stored frames (if w = [] then [] else [w]) := by
  induction w generalizing frames with
  | nil => rfl
  | cons c w ih =>
    rw [openPath, ih, wordsAlong]
    cases w <;> simp [words]

theorem openTargets_openPath (w : Word) (frames : List Frame) :
    openTargets (openPath w frames) = openTargets frames := by
  induction w generalizing frames with
  | nil => rfl
  | cons c w ih =>
    rw [openPath, ih]
    simp [openTargets]

theorem sound_openPath {ends : Record → Prop} {states : Frozen} (w : Word) {frames : List Frame}
    (h : ∀ f ∈ frames, f.SoundOr ends states) : ∀ f ∈ openPath w frames, f.SoundOr ends states := by
  induction w generalizing frames with
  | nil => exact h
  | cons c w ih =>
    rw [openPath]
    apply ih
    intro f hf
    rcases List.mem_cons.1 hf with rfl | hf
    · exact ⟨by simp, by simp⟩
    · exact h f hf

theorem isFinal_openPath (w : Word) {frames : List Frame} (h : w = [] → ∀ f ∈ frames.head?, f.isFinal = true) :
    ∀ f ∈ (openPath w frames).head?, f.isFinal = true := by
  induction w generalizing frames with
  | nil => exact h rfl
  | cons c w ih =>
    rw [openPath]
    apply ih
    intro hw f hf
    obtain rfl : ⟨[], c, w.isEmpty⟩ = f := by simpa using hf
    simp [hw]

theorem SoundOr.advance {ends : Record → Prop} {states : Frozen} {f : Frame} (h : f.SoundOr ends states)
    {child : UInt32} (hchild : states.LeadsOr ends ⟨f.label, f.isFinal, child⟩) {c : UInt8} (hc : f.label < c)
    (isFinal : Bool) : (f.advance child c isFinal).SoundOr ends states := by
  refine ⟨?_, ?_⟩
  · intro r hr
    rcases List.mem_cons.1 hr with rfl | hr
    · exact hchild
    · exact h.leads r hr
  · have hlabels : (f.advance child c isFinal).closed.reverse.map Record.label ++ [(f.advance child c isFinal).label] =
        (f.closed.reverse.map Record.label ++ [f.label]) ++ [c] := by
      simp [Frame.advance]
    rw [hlabels]
    refine List.pairwise_append.2 ⟨h.ascending, by simp, ?_⟩
    intro x hx y hy
    obtain rfl := List.mem_singleton.1 hy
    rcases List.mem_append.1 hx with hx | hx
    · exact UInt8.lt_trans ((List.pairwise_append.1 h.ascending).2.2 x hx f.label (by simp)) hc
    · exact List.mem_singleton.1 hx ▸ hc

theorem words_advance (stored : UInt32 → List Word) (f : Frame) (child : UInt32) (c : UInt8) (w : Word) :
    (f.advance child c w.isEmpty).words stored (if w = [] then [] else [w]) = f.words stored (stored child) ++ [c :: w] := by
  cases w <;> simp [words, advance, Record.words]

end Frame

namespace Opened

variable {W : List Word} {p : Pool} {child : UInt32} {frames : List Frame}

/-- Freezing so many of the deepest open states, provided that all words that begin like the word added last do, at the
places of these states, are added. -/
theorem freezeTail_cases (h : Opened W p child frames) {words : List Word} (hwords : spelled p child frames = words)
    (hW : ∀ w ∈ words, w ∈ W) {n k : Nat} (hk : n + k ≤ frames.length)
    (hsealed : ∀ u, u <+: Frame.path frames → k ≤ u.length → ∀ w ∈ W, u <+: w → w ∈ words) :
    (∃ a p', freezeTail p child n frames = .ok (a, p', frames.drop n) ∧ Opened W p' a (frames.drop n) ∧
      spelled p' a (frames.drop n) = words) ∨
    freezeTail p child n frames = .error .capacityExceeded ∧ 2 ^ 32 ≤ Record.size * (1 + (neededArcs W).ncard) := by
  -- The words spelled stay the same from step to step, so that what is sealed at first is sealed all along.
  induction n generalizing p child frames with
  | zero => exact .inl ⟨child, p, rfl, h, hwords⟩
  | succ n ih =>
    cases frames with
    | nil => simp at hk
    | cons f frames =>
      rw [List.length_cons] at hk
      have hprefix : Frame.path frames <+: Frame.path (f :: frames) := by
        rw [Frame.path_cons]
        exact List.prefix_append _ _
      have hdeepest : ∀ w ∈ W, Frame.path frames <+: w → w ∈ spelled p child (f :: frames) := by
        rw [hwords]
        exact hsealed _ hprefix (by rw [Frame.length_path]; omega)
      rw [freezeTail]
      rcases h.freeze_cases (hwords ▸ hW) hdeepest with ⟨a, p', hok, h', hspelled⟩ | ⟨herror, hsize⟩
      · rw [hok, ok_bind, List.drop_succ_cons]
        rcases ih h' (hspelled.trans hwords) (by omega) fun u hu => hsealed u (hu.trans hprefix) with
          ⟨b, p'', hok, h'', hspelled⟩ | ⟨herror, hsize⟩
        · exact .inl ⟨b, p'', hok, h'', hspelled⟩
        · exact .inr ⟨herror, hsize⟩
      · rw [herror]
        exact .inr ⟨rfl, hsize⟩

end Opened

namespace Builder

theorem refuse?_eq_none {previous : Option Word} {w : Word} :
    refuse? previous w = none ↔ w ≠ [] ∧ ∀ p ∈ previous, Precedes p w := by
  by_cases hw : w = []
  · simp [refuse?, hw]
  · cases previous with
    | none => simp [refuse?, hw]
    | some p =>
      simp only [refuse?, if_neg hw, Option.mem_some_iff, forall_eq', ← compareWords_eq_lt]
      cases compareWords p w <;> simp [hw]

/-- What a builder has come to when some words of `W` are added. -/
structure Built (W : List Word) (words : List Word) (b : Builder) : Prop where
  opened : Opened W b.pool 0 b.frames
  spelled_eq : spelled b.pool 0 b.frames = words
  path_eq : Frame.path b.frames = b.previous.getD []
  previous_eq : b.previous = words.getLast?

theorem built_empty (W : List Word) : Built W [] empty := by
  refine ⟨⟨Pool.sound_empty, ?_, .inl rfl, ?_, ?_, ?_⟩, ?_, rfl, rfl⟩
  · simp [empty]
  · simp [empty]
  · intro a rs ha
    simp [empty, Pool.empty, Frozen.row] at ha
  · intro a rs ha
    simp [empty, Pool.empty, Frozen.row] at ha
  · rfl

/-- A path is left where the next word parts from it: the open arc there is closed and another one opened. -/
theorem opened_advance {W : List Word} {p : Pool} {child : UInt32} {f : Frame} {frames : List Frame}
    (h : Opened W p child (f :: frames)) {c : UInt8} (hc : f.label < c) (rest : Word) :
    Opened W p 0 (openPath rest (f.advance child c rest.isEmpty :: frames)) ∧
      spelled p 0 (openPath rest (f.advance child c rest.isEmpty :: frames)) =
        spelled p child (f :: frames) ++ [Frame.path frames ++ c :: rest] := by
  have hsound : ∀ g ∈ f.advance child c rest.isEmpty :: frames, g.Sound p.states := by
    intro g hg
    rcases List.mem_cons.1 hg with rfl | hg
    · exact (h.sound f (by simp)).advance h.leads hc _
    · exact h.sound g (List.mem_cons_of_mem f hg)
  refine ⟨⟨h.pool, Frame.sound_openPath rest hsound, .inl rfl, ?_, h.within, ?_⟩, ?_⟩
  · intro _
    apply Frame.isFinal_openPath
    intro hrest g hg
    obtain rfl : f.advance child c rest.isEmpty = g := by simpa using hg
    simp [Frame.advance, hrest]
  · intro a rs ha
    apply (h.live a rs ha).mono
    intro b hb
    rw [Frame.openTargets_openPath]
    simp only [openTargets, List.flatMap_cons, List.mem_cons, List.mem_append, Frame.advance, List.map_cons] at hb ⊢
    grind
  · rw [spelled, Frozen.words_zero, Frame.wordsAlong_openPath, Frame.wordsAlong, Frame.words_advance,
      Frame.wordsAlong_append, spelled, Frame.wordsAlong]

/-- A word that goes on from the one added last. -/
theorem opened_openPath {W : List Word} {p : Pool} {frames : List Frame} (h : Opened W p 0 frames) {w : Word}
    (hw : w ≠ []) : Opened W p 0 (openPath w frames) ∧
      spelled p 0 (openPath w frames) = spelled p 0 frames ++ [Frame.path frames ++ w] := by
  refine ⟨⟨h.pool, Frame.sound_openPath w h.sound, .inl rfl, ?_, h.within, ?_⟩, ?_⟩
  · intro _
    exact Frame.isFinal_openPath w fun hnil => absurd hnil hw
  · rw [Frame.openTargets_openPath]
    exact h.live
  · rw [spelled, Frozen.words_zero, Frame.wordsAlong_openPath, if_neg hw, spelled, Frozen.words_zero,
      ← Frame.wordsAlong_append, List.nil_append]

/-- Words that begin like the word added last, beyond what it shares with the next one, are added. -/
theorem sealed_of_prefix {W words : List Word} {w : Word} {todo : List Word} (hasc : Ascending W)
    (hsplit : W = words ++ w :: todo) {u : Word} (hu : u <+: words.getLast?.getD [])
    (hlength : commonLength (words.getLast?.getD []) w < u.length) {v : Word} (hv : v ∈ W) (huv : u <+: v) :
    v ∈ words := by
  cases hlast : words.getLast? with
  | none =>
    rw [hlast] at hu hlength
    have hnil := hu.length_le
    simp only [Option.getD_none, List.length_nil] at hnil
    omega
  | some previous =>
    rw [hlast] at hu hlength
    simp only [Option.getD_some] at hu hlength
    have hmem : previous ∈ words := List.mem_of_getLast? hlast
    have hpairs := List.pairwise_append.1 (hsplit ▸ hasc : (words ++ w :: todo).Pairwise Precedes)
    have hpw : Precedes previous w := hpairs.2.2 previous hmem w (by simp)
    have hnot : ¬u <+: w := by
      intro huw
      have := length_le_commonLength hu huw
      omega
    rw [hsplit, List.mem_append, List.mem_cons] at hv
    rcases hv with hv | rfl | hv
    · exact hv
    · exact absurd huv hnot
    · have hwv := (List.pairwise_cons.1 hpairs.2.1).1 v hv
      exact absurd (prefix_of_between hu huv hpw hwv) hnot

/-- A word parts from a path behind `common` labels, with `c` where the path has a smaller label or ends. -/
structure Parting (path w : Word) (common : Nat) (c : UInt8) (rest : Word) : Prop where
  common_eq : commonLength path w = common
  split_eq : w = path.take common ++ c :: rest
  label_lt : ∀ d ∈ path[common]?, d < c

theorem exists_parting {previous : Option Word} {w : Word} (hw : w ≠ []) (h : ∀ p ∈ previous, Precedes p w) :
    ∃ common c rest, Parting (previous.getD []) w common c rest := by
  cases previous with
  | none =>
    obtain ⟨c, rest, rfl⟩ := List.exists_cons_of_ne_nil hw
    exact ⟨0, c, rest, rfl, by simp, by simp⟩
  | some p =>
    obtain ⟨c, rest, hsplit, hlt⟩ := (h p rfl).parts
    exact ⟨commonLength p w, c, rest, rfl, hsplit, hlt⟩

namespace Parting

variable {path w : Word} {common : Nat} {c : UInt8} {rest : Word} (h : Parting path w common c rest)

include h

theorem le_length : common ≤ path.length := by
  rw [← h.common_eq]
  exact commonLength_le_left _ _

theorem drop_eq : w.drop common = c :: rest := by
  have hle := h.le_length
  have htake : (path.take common).length = common := by
    rw [List.length_take]
    omega
  rw [h.split_eq]
  exact List.drop_left' htake

/-- The deepest of the states along the path up to the parting. -/
theorem exists_top (hlt : common < path.length) {frames : List Frame} (hpath : Frame.path frames = path.take (common + 1)) :
    ∃ f below, frames = f :: below ∧ Frame.path below = path.take common ∧ f.label < c := by
  rw [List.take_add_one, List.getElem?_eq_getElem hlt, Option.toList_some] at hpath
  cases frames with
  | nil =>
    have hlength := congrArg List.length hpath
    rw [Frame.length_path, List.length_append, List.length_nil, List.length_singleton] at hlength
    omega
  | cons f below =>
    rw [Frame.path_cons] at hpath
    obtain ⟨hbelow, hlabel⟩ := List.append_inj' hpath rfl
    have hsame : f.label = path[common] := by simpa using hlabel
    have hless : f.label < c := h.label_lt f.label (by rw [hsame]; exact List.getElem?_eq_getElem hlt)
    exact ⟨f, below, rfl, hbelow, hless⟩

end Parting

section

variable {b : Builder} {w : Word} {common : Nat} {c : UInt8} {rest : Word} (hrefuse : refuse? b.previous w = none)
  (hparting : Parting (b.previous.getD []) w common c rest)

include hrefuse hparting

theorem add_eq_parting {a : UInt32} {p : Pool} {f : Frame} {below : List Frame} (hbelow : below.length = common)
    (hfreeze : freezeTail b.pool 0 (b.frames.length - (common + 1)) b.frames = .ok (a, p, f :: below)) :
    b.add w = .ok ⟨p, openPath rest (f.advance a c rest.isEmpty :: below), some w, b.sequences + 1⟩ := by
  have hlt : common < (f :: below).length := by
    rw [List.length_cons]
    omega
  simp only [add, extend, hrefuse, hparting.common_eq, hfreeze, ok_bind, hparting.drop_eq]
  rw [if_pos hlt]
  rfl

theorem add_eq_longer (hlength : common = b.frames.length) :
    b.add w = .ok ⟨b.pool, openPath (c :: rest) b.frames, some w, b.sequences + 1⟩ := by
  have hnone : b.frames.length - (b.frames.length + 1) = 0 := by omega
  subst hlength
  simp only [add, extend, hrefuse, hparting.common_eq, hnone, hparting.drop_eq, freezeTail, ok_bind]
  cases hframes : b.frames with
  | nil => rfl
  | cons f below => simp

theorem add_eq_error {e : BuildError}
    (hfreeze : freezeTail b.pool 0 (b.frames.length - (common + 1)) b.frames = .error e) : b.add w = .error e := by
  simp only [add, hrefuse, hparting.common_eq, hfreeze, error_bind]

end

theorem Built.add_cases {W words : List Word} {b : Builder} (h : Built W words b) {w : Word} {todo : List Word}
    (hasc : Ascending W) (hw : w ≠ []) (hsplit : W = words ++ w :: todo) :
    (∃ b', b.add w = .ok b' ∧ Built W (words ++ [w]) b') ∨
    b.add w = .error .capacityExceeded ∧ 2 ^ 32 ≤ Record.size * (1 + (neededArcs W).ncard) := by
  have hprevious : ∀ p ∈ b.previous, Precedes p w := by
    intro p hp
    rw [h.previous_eq] at hp
    have hpairs := List.pairwise_append.1 (hsplit ▸ hasc : (words ++ w :: todo).Pairwise Precedes)
    exact hpairs.2.2 p (List.mem_of_getLast? hp) w (by simp)
  have hrefuse : refuse? b.previous w = none := refuse?_eq_none.2 ⟨hw, hprevious⟩
  obtain ⟨common, c, rest, hparting⟩ := exists_parting hw hprevious
  have hlength : (b.previous.getD []).length = b.frames.length := by
    rw [← h.path_eq, Frame.length_path]
  by_cases hlt : common < b.frames.length
  · -- What lies deeper than the parting is frozen: no word that is still to come begins like it.
    have hW : ∀ v ∈ words, v ∈ W := by
      intro v hv
      rw [hsplit]
      exact List.mem_append_left _ hv
    have hsealed (u : Word) (hu : u <+: Frame.path b.frames) (hk : common + 1 ≤ u.length) (v : Word) (hv : v ∈ W)
        (huv : u <+: v) : v ∈ words := by
      have hcommon := hparting.common_eq
      rw [h.path_eq, h.previous_eq] at hu
      rw [h.previous_eq] at hcommon
      exact sealed_of_prefix hasc hsplit hu (by omega) hv huv
    rcases h.opened.freezeTail_cases (n := b.frames.length - (common + 1)) h.spelled_eq hW (by omega) hsealed with
      ⟨a, p', hok, hopened, hspelled⟩ | ⟨herror, hsize⟩
    · left
      have hpath := Frame.path_drop b.frames (b.frames.length - (common + 1))
      rw [h.path_eq, Nat.sub_sub_self hlt] at hpath
      obtain ⟨f, below, hframes, hbelow, hlabel⟩ := hparting.exists_top (by omega) hpath
      rw [hframes] at hok hopened hspelled
      obtain ⟨hopened', hspelled'⟩ := opened_advance hopened hlabel rest
      have hcount : below.length = common := by
        rw [← Frame.length_path, hbelow, List.length_take]
        omega
      refine ⟨_, add_eq_parting hrefuse hparting hcount hok, hopened', ?_, ?_, by simp⟩
      · rw [hspelled', hspelled, hbelow, ← hparting.split_eq]
      · rw [Frame.path_openPath, Frame.path_cons, hbelow, Option.getD_some]
        exact (List.append_assoc _ _ _).trans hparting.split_eq.symm
    · exact .inr ⟨add_eq_error hrefuse hparting herror, hsize⟩
  · left
    have hle := hparting.le_length
    have hwhole : Frame.path b.frames ++ c :: rest = w := by
      have hall := hparting.split_eq
      rw [List.take_of_length_le (by omega)] at hall
      rw [h.path_eq]
      exact hall.symm
    obtain ⟨hopened', hspelled'⟩ := opened_openPath h.opened (List.cons_ne_nil c rest)
    refine ⟨_, add_eq_longer hrefuse hparting (by omega), hopened', ?_, ?_, by simp⟩
    · rw [hspelled', h.spelled_eq, hwhole]
    · rw [Frame.path_openPath, hwhole]
      rfl

theorem Built.foldlM_cases {W words todo : List Word} {b : Builder} (h : Built W words b) (hasc : Ascending W)
    (hnonempty : ∀ w ∈ W, w ≠ []) (hsplit : W = words ++ todo) :
    (∃ b', todo.foldlM add b = .ok b' ∧ Built W W b') ∨
    todo.foldlM add b = .error .capacityExceeded ∧ 2 ^ 32 ≤ Record.size * (1 + (neededArcs W).ncard) := by
  induction todo generalizing words b with
  | nil =>
    rw [List.append_nil] at hsplit
    exact .inl ⟨b, rfl, by rw [hsplit]; exact hsplit ▸ h⟩
  | cons w todo ih =>
    have hw : w ≠ [] := hnonempty w (by simp [hsplit])
    rw [List.foldlM_cons]
    rcases h.add_cases hasc hw hsplit with ⟨b', hok, hbuilt⟩ | ⟨herror, hsize⟩
    · rw [hok, ok_bind]
      exact ih hbuilt (by rw [hsplit, List.append_assoc]; rfl)
    · exact .inr ⟨by rw [herror]; rfl, hsize⟩

/-- The states of a finished automaton of some words, and the address of its root. -/
structure Finished (W : List Word) (p : Pool) (root : UInt32) : Prop where
  opened : Opened W p root []
  words_eq : Frozen.words p.states root = W

theorem Built.complete_cases {W : List Word} {b : Builder} (h : Built W W b) :
    (∃ p root, b.complete = .ok ⟨p.toBytes root⟩ ∧ Finished W p root) ∨
    b.complete = .error .capacityExceeded ∧ 2 ^ 32 ≤ Record.size * (1 + (neededArcs W).ncard) := by
  rcases h.opened.freezeTail_cases (n := b.frames.length) (k := 0) h.spelled_eq (fun w hw => hw) (by omega)
    (fun _ _ _ w hw _ => hw) with ⟨a, p, hok, hopened, hspelled⟩ | ⟨herror, hsize⟩
  · rw [List.drop_length] at hok hopened hspelled
    refine .inl ⟨p, a, ?_, hopened, hspelled⟩
    rw [complete, hok]
    rfl
  · exact .inr ⟨by rw [complete, herror]; rfl, hsize⟩

/-- What becomes of words in ascending order. -/
theorem build_cases {W : List Word} (hasc : Ascending W) (hnonempty : ∀ w ∈ W, w ≠ []) :
    (∃ p root, build W = .ok ⟨p.toBytes root⟩ ∧ Finished W p root) ∨
    build W = .error .capacityExceeded ∧ 2 ^ 32 ≤ Record.size * (1 + (neededArcs W).ncard) := by
  rcases (built_empty W).foldlM_cases hasc hnonempty rfl with ⟨b, hok, hbuilt⟩ | ⟨herror, hsize⟩
  · rw [build, hok, ok_bind]
    exact hbuilt.complete_cases
  · exact .inr ⟨by rw [build, herror]; rfl, hsize⟩

theorem add_eq_ok {b b' : Builder} {w : Word} (h : b.add w = .ok b') :
    refuse? b.previous w = none ∧ b'.previous = some w := by
  rw [add] at h
  split at h
  · cases h
  · rename_i hrefuse
    obtain ⟨x, -, h⟩ := bind_eq_ok.1 h
    injection h with h
    exact ⟨hrefuse, by rw [← h]⟩

theorem ascending_of_foldlM {words : List Word} {b b' : Builder} (h : words.foldlM add b = .ok b') :
    (∀ w ∈ words, w ≠ []) ∧ Ascending (b.previous.toList ++ words) := by
  induction words generalizing b with
  | nil => cases hprevious : b.previous <;> simp [Ascending]
  | cons w words ih =>
    obtain ⟨b1, hadd, h⟩ := bind_eq_ok.1 (List.foldlM_cons.symm.trans h)
    obtain ⟨hrefuse, hprevious⟩ := add_eq_ok hadd
    obtain ⟨hw, hlt⟩ := refuse?_eq_none.1 hrefuse
    obtain ⟨hnonempty, hasc⟩ := ih h
    rw [hprevious, Option.toList_some, List.singleton_append] at hasc
    refine ⟨by simpa [hw] using hnonempty, ?_⟩
    cases hfirst : b.previous with
    | none => exact hasc
    | some p =>
      have hpw : Precedes p w := hlt p hfirst
      refine List.pairwise_cons.2 ⟨?_, hasc⟩
      intro v hv
      rcases List.mem_cons.1 hv with rfl | hv
      · exact hpw
      · exact hpw.trans ((List.pairwise_cons.1 hasc).1 v hv)

theorem built_of_foldlM {words : List Word} {b : Builder} (h : words.foldlM add empty = .ok b) : Built words words b := by
  obtain ⟨hnonempty, hasc⟩ := ascending_of_foldlM h
  rcases (built_empty words).foldlM_cases hasc hnonempty rfl with ⟨b', hok, hbuilt⟩ | ⟨herror, -⟩
  · obtain rfl : b = b' := Except.ok.inj (h.symm.trans hok)
    exact hbuilt
  · cases h.symm.trans herror

theorem ascending_of_build {W : List Word} {b : RecordBuffer} (h : build W = .ok b) :
    (∀ w ∈ W, w ≠ []) ∧ Ascending W := by
  obtain ⟨b', hok, -⟩ := bind_eq_ok.1 h
  exact ascending_of_foldlM hok

theorem finished_of_build {W : List Word} {b : RecordBuffer} (h : build W = .ok b) :
    ∃ p root, b = ⟨p.toBytes root⟩ ∧ Finished W p root := by
  obtain ⟨hnonempty, hasc⟩ := ascending_of_build h
  rcases build_cases hasc hnonempty with ⟨p, root, hok, hfinished⟩ | ⟨herror, -⟩
  · exact ⟨p, root, Except.ok.inj (h.symm.trans hok), hfinished⟩
  · cases h.symm.trans herror

end Builder

end WordAutomata
