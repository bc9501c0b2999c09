import WordAutomata.Proofs.Pool

namespace WordAutomata

namespace Frame

/-- The words spelled from an open state, given those that its last arc goes on with. -/
def words (stored : UInt32 → List Word) (f : Frame) (below : List Word) : List Word :=
  f.closed.reverse.flatMap (Record.words stored) ++
    ((if f.isFinal then [[f.label]] else []) ++ below.map (f.label :: ·))

theorem flatMap_records (stored : UInt32 → List Word) (f : Frame) (target : UInt32) :
    (f.records target).flatMap (Record.words stored) = f.words stored (stored target) := by
  rw [records, List.flatMap_append, words]
  simp [Record.words]

/-- All words spelled along frames, the deepest first, given those below the deepest. -/
def wordsAlong (stored : UInt32 → List Word) : List Frame → List Word → List Word
  | [], below => below
  | f :: frames, below => wordsAlong stored frames (f.words stored below)

/-- The labels along frames, those of the deepest last. -/
def path (frames : List Frame) : Word := (frames.map Frame.label).reverse

theorem path_cons (f : Frame) (frames : List Frame) : path (f :: frames) = path frames ++ [f.label] := by
  simp [path]

/-- The closed arcs of an open state lead to frozen states and have smaller labels than the open one. -/
structure SoundOr (ends : Record → Prop) (states : Frozen) (f : Frame) : Prop where
  leads : ∀ r ∈ f.closed, states.LeadsOr ends r
  ascending : (f.closed.reverse.map Record.label ++ [f.label]).Pairwise (· < ·)

abbrev Sound (states : Frozen) (f : Frame) : Prop := SoundOr (fun r => r.isFinal = true) states f

theorem map_label_records (f : Frame) (target : UInt32) :
    (f.records target).map Record.label = f.closed.reverse.map Record.label ++ [f.label] := by
  simp [records]

namespace SoundOr

variable {ends : Record → Prop} {states : Frozen} {f : Frame} (h : f.SoundOr ends states)

include h

theorem proper {target : UInt32} (htarget : states.LeadsOr ends ⟨f.label, f.isFinal, target⟩) :
    states.ProperOr ends (f.records target) := by
  refine ⟨by simp [records], ?_, ?_⟩
  · exact List.pairwise_map.1 (f.map_label_records target ▸ h.ascending)
  · intro r hr
    rw [records, List.mem_append, List.mem_reverse, List.mem_singleton] at hr
    rcases hr with hr | rfl
    · exact h.leads r hr
    · exact htarget

theorem label_ne {r : Record} (hr : r ∈ f.closed) : f.label ≠ r.label := by
  have := (List.pairwise_append.1 h.ascending).2.2 r.label (List.mem_map_of_mem (List.mem_reverse.2 hr)) f.label (by simp)
  exact (UInt8.ne_of_lt this).symm

theorem cons_mem_words {stored : UInt32 → List Word} {below : List Word} {w : Word} :
    f.label :: w ∈ f.words stored below ↔ w = [] ∧ f.isFinal = true ∨ w ∈ below := by
  rw [words, List.mem_append, List.mem_flatMap]
  constructor
  · intro hmem
    rcases hmem with ⟨r, hr, hw⟩ | hw
    · exact absurd (Record.cons_mem_words.1 hw).1 (h.label_ne (List.mem_reverse.1 hr))
    · split at hw <;> simp_all
  · intro hmem
    rcases hmem with ⟨rfl, hfinal⟩ | hw
    · exact .inr (by simp [hfinal])
    · exact .inr (List.mem_append_right _ (List.mem_map_of_mem hw))

theorem of_suffix {new : Frozen} (hnew : new.SoundOr ends) (hsuffix : states <:+ new) : f.SoundOr ends new :=
  ⟨fun r hr => (h.leads r hr).of_suffix hnew hsuffix, h.ascending⟩

theorem words_of_suffix {new : Frozen} (hnew : new.SoundOr ends) (hsuffix : states <:+ new) (below : List Word) :
    f.words new.words below = f.words states.words below := by
  rw [words, words, Frozen.flatMap_words_of_suffix hnew hsuffix fun r hr => h.leads r (List.mem_reverse.1 hr)]

end SoundOr

theorem nil_notMem_words (stored : UInt32 → List Word) (f : Frame) (below : List Word) : [] ∉ f.words stored below := by
  rw [words, List.mem_append, List.mem_flatMap]
  intro hmem
  rcases hmem with ⟨r, -, hw⟩ | hw
  · exact Record.nil_notMem_words stored r hw
  · split at hw <;> simp at hw

theorem wordsAlong_of_suffix {states new : Frozen} {frames : List Frame} (h : ∀ f ∈ frames, f.Sound states)
    (hnew : new.Sound) (hsuffix : states <:+ new) (below : List Word) :
    wordsAlong new.words frames below = wordsAlong states.words frames below := by
  induction frames generalizing below with
  | nil => rfl
  | cons f frames ih =>
    rw [wordsAlong, wordsAlong, (h f (by simp)).words_of_suffix hnew hsuffix]
    exact ih (fun g hg => h g (List.mem_cons_of_mem f hg)) _

/-- A word that goes on along all frames is one of those below. -/
theorem append_mem_wordsAlong {states : Frozen} {frames : List Frame} (h : ∀ f ∈ frames, f.Sound states)
    {stored : UInt32 → List Word} {below : List Word} {w : Word} (hw : w ≠ []) :
    path frames ++ w ∈ wordsAlong stored frames below ↔ w ∈ below := by
  induction frames generalizing below w with
  | nil => rfl
  | cons f frames ih =>
    rw [path_cons, List.append_assoc, List.singleton_append, wordsAlong,
      ih (fun g hg => h g (List.mem_cons_of_mem f hg)) (by simp), (h f (by simp)).cons_mem_words]
    simp [hw]

theorem wordsAlong_append (stored : UInt32 → List Word) (frames : List Frame) (below : List Word) (w : Word) :
    wordsAlong stored frames (below ++ [w]) = wordsAlong stored frames below ++ [path frames ++ w] := by
  induction frames generalizing below w with
  | nil => rfl
  | cons f frames ih =>
    have hwords : f.words stored (below ++ [w]) = f.words stored below ++ [f.label :: w] := by
      simp [words]
    rw [wordsAlong, hwords, ih, path_cons, wordsAlong, List.append_assoc]
    rfl

end Frame

end WordAutomata
