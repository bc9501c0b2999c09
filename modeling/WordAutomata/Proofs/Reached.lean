import WordAutomata.Proofs.Calls
import WordAutomata.Proofs.Records

namespace WordAutomata

namespace Record

theorem testBit_last (r : Record) (isLast : Bool) :
    (UInt8.ofNat ((if isLast then 1 else 0) + if r.isFinal then 2 else 0)).toNat.testBit 0 = isLast := by
  cases isLast <;> cases r.isFinal <;> decide

theorem holds_record {data : Bytes} {rs : List Record} {a j : Nat} {r : Record} (h : data.Holds a (rowBytes rs))
    (hr : rs[j]? = some r) : data.Holds (a + size * j) (r.toBytes (j + 1 == rs.length)) := by
  induction rs generalizing a j with
  | nil => simp at hr
  | cons r' rs ih =>
    rw [rowBytes_cons, Bytes.holds_append, length_toBytes] at h
    cases j with
    | zero =>
      obtain rfl : r' = r := by simpa using hr
      have hlast : (0 + 1 == (r' :: rs).length) = rs.isEmpty := by cases rs <;> simp
      rw [hlast]
      exact h.1
    | succ j =>
      have hrest := ih h.2 (by simpa using hr)
      have hplace : a + size + size * j = a + size * (j + 1) := by rw [Nat.mul_succ]; omega
      have hlast : (j + 1 + 1 == (r' :: rs).length) = (j + 1 == rs.length) := by simp
      rwa [hplace, ← hlast] at hrest

end Record

namespace Frozen

variable {ends : Record → Prop}

theorem SoundOr.nodup {states : Frozen} (h : SoundOr ends states) : states.Nodup := by
  induction states with
  | nil => exact List.nodup_nil
  | cons rs states ih =>
    obtain ⟨-, hnew, -, h⟩ := h
    exact List.nodup_cons.2 ⟨hnew, ih h⟩

/-- A state as it stands at an address of a buffer. -/
structure Regular (states : Frozen) (buffer : Bytes) (a : Nat) (rs : List Record) : Prop where
  holds : buffer.Holds a (Record.rowBytes rs)
  behind_first : Record.size ≤ a
  ne_nil : rs ≠ []
  ascending : rs.Pairwise fun r s => r.label < s.label
  /-- The last record is marked, and no other. -/
  last_iff : ∀ j, j < rs.length → ∃ m, buffer[a + Record.size * j]? = some m ∧ (m.toNat.testBit 0 ↔ j + 1 = rs.length)
  /-- An arc has no target, or leads to a state that stands before this one. -/
  target : ∀ r ∈ rs, r.target = 0 ∨ r.target.toNat < a ∧ ∃ rs', row states r.target.toNat = some rs'

theorem SoundOr.regular {states : Frozen} (h : SoundOr ends states) {buffer : Bytes} {a : Nat} {rs : List Record}
    (ha : row states a = some rs) (hholds : buffer.Holds a (Record.rowBytes rs)) : Regular states buffer a rs := by
  have hproper := proper_of_row h ha
  have hplace := (bounds_of_row ha).1
  refine ⟨hholds, hplace, hproper.ne_nil, hproper.ascending, ?_, ?_⟩
  · intro j hj
    have hrecord := Record.holds_record hholds (List.getElem?_eq_getElem hj)
    have hmark := hrecord.getElem?
    refine ⟨_, hmark, ?_⟩
    rw [Record.testBit_last, beq_iff_eq]
  · intro r hr
    rcases hproper.leads r hr with ⟨hzero, -⟩ | hrow
    · exact .inl hzero
    · exact .inr ⟨target_lt h ha hr, hrow⟩

end Frozen

theorem Frame.path_prefix {frames frames' : List Frame} (h : frames' <:+ frames) : path frames' <+: path frames :=
  List.reverse_prefix.2 (h.map Frame.label)

/-- Frozen states of which some arcs may lead nowhere, because the state that they were to lead to has found no room. -/
abbrev Pool.Kept (p : Pool) : Prop := p.SoundOr fun _ => True

abbrev Frame.Kept (states : Frozen) (f : Frame) : Prop := f.SoundOr (fun _ => True) states

/-- What freezing comes to, whether it gets through or not. -/
structure Freezing (p : Pool) (frames : List Frame) (a : UInt32) (p' : Pool) (frames' : List Frame) : Prop where
  pool : p'.Kept
  kept : ∀ f ∈ frames', f.Kept p'.states
  stored : Frozen.Stored p'.states a
  grows : p.states <:+ p'.states
  left : frames' <:+ frames

theorem freezeEach_freezing {p p' : Pool} {child a : UInt32} {n : Nat} {frames frames' : List Frame}
    {answer : Option BuildError} (hp : p.Kept) (hframes : ∀ f ∈ frames, f.Kept p.states)
    (hchild : Frozen.Stored p.states child) (h : freezeEach p child n frames = (answer, a, p', frames')) :
    Freezing p frames a p' frames' ∧ (answer = none → frames' = frames.drop n) := by
  induction n generalizing p child frames with
  | zero =>
    obtain ⟨rfl, rfl, rfl, rfl⟩ : none = answer ∧ child = a ∧ p = p' ∧ frames = frames' := by simpa [freezeEach] using h
    exact ⟨⟨hp, hframes, hchild, List.suffix_refl _, List.suffix_refl _⟩, fun _ => rfl⟩
  | succ n ih =>
    cases frames with
    | nil =>
      obtain ⟨rfl, rfl, rfl, rfl⟩ : none = answer ∧ child = a ∧ p = p' ∧ [] = frames' := by simpa [freezeEach] using h
      exact ⟨⟨hp, hframes, hchild, List.suffix_refl _, List.suffix_refl _⟩, fun _ => rfl⟩
    | cons f frames =>
      have hbelow : ∀ g ∈ frames, g.Kept p.states := fun g hg => hframes g (List.mem_cons_of_mem f hg)
      have hproper := (hframes f List.mem_cons_self).proper (hchild.imp (fun hzero => ⟨hzero, trivial⟩) id)
      rw [freezeEach] at h
      rcases Pool.freeze_cases hp hproper with ⟨b, q, hok, hq, hrow, hstates⟩ | ⟨herror, -, -⟩
      · have hsuffix : p.states <:+ q.states := by
          rcases hstates with hstates | hstates
          · exact hstates ▸ List.suffix_refl _
          · exact hstates ▸ List.suffix_cons _ _
        rw [hok] at h
        obtain ⟨hfreezing, hthrough⟩ :=
          ih hq (fun g hg => (hbelow g hg).of_suffix hq.states hsuffix) (.inr ⟨_, hrow⟩) h
        exact ⟨⟨hfreezing.pool, hfreezing.kept, hfreezing.stored, hsuffix.trans hfreezing.grows,
          hfreezing.left.trans (List.suffix_cons f frames)⟩, hthrough⟩
      · rw [herror] at h
        obtain ⟨rfl, rfl, rfl, rfl⟩ : some .capacityExceeded = answer ∧ 0 = a ∧ p = p' ∧ frames = frames' := by
          simpa using h
        exact ⟨⟨hp, hbelow, .inl rfl, List.suffix_refl _, List.suffix_cons f frames⟩, by simp⟩

namespace Builder

/-- What calls keep, whatever they answer. -/
structure Kept (b : Builder) : Prop where
  pool : b.pool.Kept
  frames : ∀ f ∈ b.frames, f.Kept b.pool.states
  path : Frame.path b.frames <+: b.previous.getD []

theorem kept_empty : empty.Kept := by
  refine ⟨Pool.sound_empty, ?_, List.nil_prefix⟩
  simp [empty]

/-- Whether a call comes back. One whose word parts from the word taken last where there is no open state any more looks for
a state outside of the path, and does not. -/
def ComesBack (b : Builder) (w : Word) : Prop :=
  refuse? b.previous w = none → commonLength (b.previous.getD []) w ≤ b.frames.length

theorem comesBack_of_path {b : Builder} (h : Frame.path b.frames = b.previous.getD []) (w : Word) : b.ComesBack w := by
  intro _
  rw [← Frame.length_path, h]
  exact commonLength_le_left _ _

section

variable {c : Comparison} {b b' : Builder} {w : Word}

/-- A word that is taken is spelled along the path, even if some of the path was lost before. -/
theorem Kept.add (h : b.Kept) (hback : b.ComesBack w) (hadd : b.add w = .ok b') :
    b'.Kept ∧ Frame.path b'.frames = w ∧ b.pool.states <:+ b'.pool.states := by
  obtain ⟨hrefuse, -⟩ := add_eq_ok hadd
  obtain ⟨hw, hlast⟩ := refuse?_eq_none.1 hrefuse
  obtain ⟨common, c, rest, hparting⟩ := exists_parting hw hlast
  have hcommon : common ≤ b.frames.length := hparting.common_eq ▸ hback hrefuse
  have hpath : Frame.path b.frames = (b.previous.getD []).take b.frames.length := by
    rw [← Frame.length_path]
    exact List.prefix_iff_eq_take.1 h.path
  rcases Nat.lt_or_eq_of_le hcommon with hlt | heq
  · rcases hfreeze : freezeEach b.pool 0 (b.frames.length - (common + 1)) b.frames with ⟨answer, a, p, frames⟩
    obtain ⟨hfreezing, hthrough⟩ := freezeEach_freezing h.pool h.frames (.inl rfl) hfreeze
    have htail := freezeTail_eq_freezeEach b.pool 0 (b.frames.length - (common + 1)) b.frames
    rw [hfreeze] at htail
    cases answer with
    | some e => cases (add_eq_error hrefuse hparting htail).symm.trans hadd
    | none =>
      have hlength := h.path.length_le
      rw [Frame.length_path] at hlength
      have hleft : Frame.path frames = (b.previous.getD []).take (common + 1) := by
        rw [hthrough rfl, Frame.path_drop, Nat.sub_sub_self hlt, hpath, List.take_take, Nat.min_eq_left hlt]
      obtain ⟨f, below, rfl, hbelow, hlabel⟩ := hparting.exists_top (Nat.lt_of_lt_of_le hlt hlength) hleft
      have hcount : below.length = common := by
        rw [← Frame.length_path, hbelow, List.length_take]
        omega
      obtain rfl := Except.ok.inj ((add_eq_parting hrefuse hparting hcount htail).symm.trans hadd)
      have hspelled : Frame.path (openPath rest (f.advance a c rest.isEmpty :: below)) = w := by
        rw [Frame.path_openPath, Frame.path_cons, hbelow, List.append_assoc]
        exact hparting.split_eq.symm
      refine ⟨⟨hfreezing.pool, Frame.sound_openPath rest ?_, hspelled ▸ List.prefix_refl _⟩, hspelled, hfreezing.grows⟩
      intro g hg
      rcases List.mem_cons.1 hg with rfl | hg
      · exact (hfreezing.kept f List.mem_cons_self).advance
          (hfreezing.stored.imp (fun hzero => ⟨hzero, trivial⟩) id) hlabel _
      · exact hfreezing.kept g (List.mem_cons_of_mem f hg)
  · obtain rfl := Except.ok.inj ((add_eq_longer hrefuse hparting heq).symm.trans hadd)
    have hspelled : Frame.path (openPath (c :: rest) b.frames) = w := by
      rw [Frame.path_openPath, hpath, ← heq]
      exact hparting.split_eq.symm
    exact ⟨⟨h.pool, Frame.sound_openPath _ h.frames, hspelled ▸ List.prefix_refl _⟩, hspelled, List.suffix_refl _⟩

/-- A call that does not take its word leaves a part of the path. -/
theorem Kept.untaken (h : b.Kept) {e : BuildError} (hcall : b.call c w = (some e, b')) :
    b'.Kept ∧ b'.previous = b.previous ∧ b.pool.states <:+ b'.pool.states := by
  rw [call] at hcall
  split at hcall
  · obtain ⟨-, rfl⟩ := Prod.mk.inj hcall
    exact ⟨h, rfl, List.suffix_refl _⟩
  · dsimp only at hcall
    split at hcall
    · rename_i hfreeze
      obtain ⟨hfreezing, -⟩ := freezeEach_freezing h.pool h.frames (.inl rfl) hfreeze
      obtain ⟨-, rfl⟩ := Prod.mk.inj hcall
      exact ⟨⟨hfreezing.pool, hfreezing.kept, (Frame.path_prefix hfreezing.left).trans h.path⟩, rfl, hfreezing.grows⟩
    · cases (Prod.mk.inj hcall).1

end

/-- What calls lead to that all come back. They are listed with their answers, the latest call first. -/
inductive Reached (c : Comparison) : List (Word × Option BuildError) → Builder → Prop
  | start : Reached c [] empty
  | call {calls : List (Word × Option BuildError)} {b : Builder} {w : Word} : Reached c calls b → b.ComesBack w →
      Reached c ((w, (b.call c w).1) :: calls) (b.call c w).2

/-- The word taken last. -/
def lastTaken (calls : List (Word × Option BuildError)) : Option Word := (calls.find? fun x => x.2.isNone).map Prod.fst

/-- The calls since a word was taken last. -/
def sinceTaken (calls : List (Word × Option BuildError)) : List (Word × Option BuildError) :=
  calls.takeWhile fun x => x.2.isSome

/-- No call was told that there is no room left. -/
def Roomy (calls : List (Word × Option BuildError)) : Prop := ∀ x ∈ calls, x.2 ≠ some .capacityExceeded

/-- The bytes so far: the record that is to lead to the root, and the frozen states behind it. -/
def buffer (b : Builder) : Bytes := b.pool.toBytes 0

namespace Reached

variable {c : Comparison} {calls : List (Word × Option BuildError)} {b : Builder}

theorem kept (h : Reached c calls b) : b.Kept ∧ b.previous = lastTaken calls := by
  induction h with
  | start => exact ⟨kept_empty, rfl⟩
  | @call calls b w _ hback ih =>
    obtain ⟨hkept, hprevious⟩ := ih
    rcases hcall : b.call c w with ⟨_ | e, b'⟩
    · have hadd := call_eq_none.1 hcall
      exact ⟨(hkept.add hback hadd).1, (add_eq_ok hadd).2⟩
    · obtain ⟨hkept', hsame, -⟩ := hkept.untaken hcall
      exact ⟨hkept', hsame.trans hprevious⟩

/-- A part of the path is lost only where there is no room for a state. -/
theorem path_eq (h : Reached c calls b) (hroom : Roomy (sinceTaken calls)) :
    Frame.path b.frames = b.previous.getD [] := by
  induction h with
  | start => rfl
  | @call calls b w h hback ih =>
    rcases call_cases c b w with ⟨e, -, hcall⟩ | ⟨-, hfull | ⟨b', hcall, hadd⟩⟩
    · rw [hcall] at hroom ⊢
      exact ih fun x hx => hroom x (List.mem_cons_of_mem _ hx)
    · have hmem : (w, some .capacityExceeded) ∈ sinceTaken ((w, (b.call c w).1) :: calls) := by
        rw [hfull]
        exact List.mem_cons_self
      exact absurd rfl (hroom _ hmem)
    · rw [hcall, (add_eq_ok hadd).2]
      exact (h.kept.1.add hback hadd).2.1

/-- As long as there is room, the builder is one that words have been added to. -/
theorem foldlM_eq (h : Reached c calls b) (hroom : Roomy calls) :
    ∃ words : List Word, words.foldlM add empty = .ok b := by
  induction h with
  | start => exact ⟨[], rfl⟩
  | @call calls b w _ _ ih =>
    obtain ⟨words, hwords⟩ := ih fun x hx => hroom x (List.mem_cons_of_mem _ hx)
    rcases call_cases c b w with ⟨e, -, hcall⟩ | ⟨-, hfull | ⟨b', hcall, hadd⟩⟩
    · exact ⟨words, by rw [hcall]; exact hwords⟩
    · exact absurd hfull (hroom _ List.mem_cons_self)
    · exact ⟨words ++ [w], by simp [List.foldlM_append, hwords, hadd, hcall]⟩

end Reached

/-- What holds of a builder whatever it has been called with. -/
structure Orderly (b : Builder) : Prop where
  /-- Behind the first record there are whole states. -/
  buffer_eq : b.buffer.toList = Record.toBytes ⟨0, false, 0⟩ true ++ b.pool.states.reverse.flatMap Record.rowBytes
  mem_iff : ∀ rs, rs ∈ b.pool.states ↔ ∃ a, Frozen.row b.pool.states a = some rs
  regular : ∀ a rs, Frozen.row b.pool.states a = some rs → Frozen.Regular b.pool.states b.buffer a rs
  /-- No two states look the same. -/
  nodup : (b.pool.states.map Record.rowBytes).Nodup
  /-- The register holds what the states look like, and where they are. -/
  register_iff : ∀ key a, b.pool.register[key]? = some a ↔
    ∃ rs, key = Record.rowBytes rs ∧ Frozen.row b.pool.states a.toNat = some rs
  /-- The path begins the word taken last. -/
  path_prefix : Frame.path b.frames <+: b.previous.getD []

theorem Kept.orderly {b : Builder} (h : b.Kept) : b.Orderly := by
  refine ⟨?_, ?_, ?_, ?_, h.pool.register_iff, h.path⟩
  · simp [buffer, Pool.toBytes]
  · intro rs
    exact Frozen.mem_iff_row h.pool.states.ne_nil
  · intro a rs ha
    have hholds : b.buffer.Holds a (Record.rowBytes rs) := Pool.holds_row ha 0
    exact h.pool.states.regular ha hholds
  · have hinj : Function.Injective Record.rowBytes := fun rs rs' heq => Record.rowBytes_injective heq
    exact h.pool.states.nodup.map hinj

theorem Kept.buffer_prefix {b : Builder} (h : b.Kept) {w : Word} (hback : b.ComesBack w) (c : Comparison) :
    b.buffer.toList <+: (b.call c w).2.buffer.toList := by
  have hgrows : b.pool.states <:+ (b.call c w).2.pool.states := by
    rcases hcall : b.call c w with ⟨_ | e, b'⟩
    · exact (h.add hback (call_eq_none.1 hcall)).2.2
    · exact (h.untaken hcall).2.2
  obtain ⟨added, hadded⟩ := hgrows
  refine ⟨added.reverse.flatMap Record.rowBytes, ?_⟩
  simp [buffer, Pool.toBytes, ← hadded]

/-- After any calls the buffer holds whole states behind its first record, each once and each known to the register, and
whatever comes next, the buffer only grows. The open states spell the word taken last, unless there has been no room for
one of them since, and then a beginning of it; until there is no room for a state, every arc without a target ends
words. -/
theorem reached_orderly {c : Comparison} {calls : List (Word × Option BuildError)} {b : Builder} (h : Reached c calls b) :
    b.Orderly ∧ b.previous = lastTaken calls ∧
    (Roomy (sinceTaken calls) → b.frames.length = (b.previous.getD []).length ∧
      Frame.path b.frames = b.previous.getD [] ∧ ∀ w, b.ComesBack w) ∧
    (Roomy calls → ∀ rs ∈ b.pool.states, ∀ r ∈ rs, r.target = 0 → r.isFinal = true) ∧
    ∀ w, b.ComesBack w → b.buffer.toList <+: (b.call c w).2.buffer.toList := by
  obtain ⟨hkept, hprevious⟩ := h.kept
  refine ⟨hkept.orderly, hprevious, ?_, ?_, fun w hback => hkept.buffer_prefix hback c⟩
  · intro hroom
    have hpath := h.path_eq hroom
    exact ⟨by rw [← hpath, Frame.length_path], hpath, comesBack_of_path hpath⟩
  · intro hroom rs hrs r hr hzero
    obtain ⟨words, hwords⟩ := h.foldlM_eq hroom
    have hpool : b.pool.Sound := (built_of_foldlM hwords).opened.pool
    obtain ⟨a, ha⟩ := (Frozen.mem_iff_row hpool.states.ne_nil).1 hrs
    rcases (Frozen.proper_of_row hpool.states ha).leads r hr with ⟨-, hfinal⟩ | ⟨rs', hrow⟩
    · exact hfinal
    · exact absurd hzero (Frozen.ne_zero_of_row hrow)

/-- One call out of order between two that count. -/
theorem reached_orderly_refused : ∃ b,
    Reached .wide [([98, 99], none), ([97], some (.unsortedInput [97, 99] [97])), ([97, 99], none)] b ∧ b.Orderly ∧
    Frame.path b.frames = [98, 99] ∧ b.pool.states = [[⟨99, true, 0⟩]] := by
  have hcalls : answers .wide empty [[97, 99], [97], [98, 99]] =
      [none, some (.unsortedInput [97, 99] [97]), none] := by cbv
  have hstates : (after .wide empty [[97, 99], [97], [98, 99]]).pool.states = [[⟨99, true, 0⟩]] := by cbv
  simp only [answers, List.cons.injEq, and_true] at hcalls
  obtain ⟨hfirst, hsecond, hthird⟩ := hcalls
  have hback {calls : List (Word × Option BuildError)} {b : Builder} (h : Reached .wide calls b)
      (hroom : Roomy (sinceTaken calls)) (w : Word) : b.ComesBack w := comesBack_of_path (h.path_eq hroom) w
  have h0 : Reached .wide [] empty := .start
  have h1 := h0.call (hback h0 (by simp [Roomy, sinceTaken]) [97, 99])
  rw [hfirst] at h1
  have h2 := h1.call (hback h1 (by simp [Roomy, sinceTaken]) [97])
  rw [hsecond] at h2
  have h3 := h2.call (hback h2 (by simp [Roomy, sinceTaken]) [98, 99])
  rw [hthird] at h3
  obtain ⟨horderly, hprevious, hpath, -⟩ := reached_orderly h3
  obtain ⟨-, hspelled, -⟩ := hpath (by simp [Roomy, sinceTaken])
  rw [hprevious] at hspelled
  exact ⟨_, h3, horderly, hspelled, hstates⟩

end Builder

theorem openPath_append (w : Word) (frames : List Frame) : openPath w frames = openPath w [] ++ frames := by
  induction w generalizing frames with
  | nil => rfl
  | cons c w ih =>
    rw [openPath, openPath, ih, ih [_], List.append_assoc]
    rfl

theorem length_openPath (w : Word) : (openPath w []).length = w.length := by
  rw [← Frame.length_path, Frame.path_openPath]
  rfl

theorem closed_openPath (w : Word) : ∀ f ∈ openPath w [], f.closed = [] := by
  induction w with
  | nil => simp [openPath]
  | cons c w ih =>
    intro f hf
    rw [openPath, openPath_append, List.mem_append, List.mem_singleton] at hf
    rcases hf with hf | rfl
    · exact ih f hf
    · rfl

/-- Along the path of a single word no state is found again. Each one leads to the one stored last, to which nothing else
leads. -/
theorem freezeEach_single {p : Pool} {child : UInt32} {frames : List Frame} (hp : p.Kept)
    (hchild : Frozen.Stored p.states child) (hfresh : ∀ rs ∈ p.states, ∀ r ∈ rs, r.target ≠ child)
    (hframes : ∀ f ∈ frames, f.closed = []) (hroom : Record.size * (1 + (frames.length + Frozen.arcs p.states)) < 2 ^ 32)
    (below : List Frame) :
    ∃ a p', freezeEach p child frames.length (frames ++ below) = (none, a, p', below) ∧ p'.Kept ∧
      Frozen.Stored p'.states a ∧ (∀ rs ∈ p'.states, ∀ r ∈ rs, r.target ≠ a) ∧
      Frozen.arcs p'.states = frames.length + Frozen.arcs p.states := by
  induction frames generalizing p child with
  | nil => exact ⟨child, p, by simp [freezeEach], hp, hchild, hfresh, (Nat.zero_add _).symm⟩
  | cons f frames ih =>
    have hrecords : f.records child = [⟨f.label, f.isFinal, child⟩] := by
      rw [Frame.records, hframes f List.mem_cons_self]
      rfl
    have hproper : Frozen.ProperOr (fun _ => True) p.states (f.records child) := by
      rw [hrecords]
      refine ⟨by simp, by simp, ?_⟩
      intro r hr
      obtain rfl := List.mem_singleton.1 hr
      exact hchild.imp (fun hzero => ⟨hzero, trivial⟩) id
    have hnew : f.records child ∉ p.states := by
      intro hmem
      exact hfresh _ hmem ⟨f.label, f.isFinal, child⟩ (by simp [hrecords]) rfl
    have harcs : Frozen.arcs (f.records child :: p.states) = 1 + Frozen.arcs p.states := by
      rw [Frozen.arcs_cons, hrecords, List.length_singleton]
    have hbehind : Frozen.behind (f.records child :: p.states) = Record.size * (1 + (1 + Frozen.arcs p.states)) := by
      rw [Frozen.behind, harcs]
    obtain ⟨b, q, hok, hq, hstates, hplace, hrow⟩ := Pool.freeze_new hp hproper hnew (by
      simp only [hbehind, List.length_cons, Record.size] at *
      omega)
    -- The new state stands behind all targets so far, so that nothing leads to it yet.
    have hbefore : ∀ rs ∈ q.states, ∀ r ∈ rs, r.target.toNat < Frozen.behind p.states := by
      intro rs hrs r hr
      rw [hstates, List.mem_cons] at hrs
      rcases hrs with rfl | hrs
      · obtain rfl : r = ⟨f.label, f.isFinal, child⟩ := by simpa [hrecords] using hr
        rcases hchild with hzero | ⟨rs, hrow⟩
        · have hpos := Frozen.six_le_behind p.states
          simp only [hzero, UInt32.toNat_zero]
          omega
        · exact Frozen.lt_behind hp.states hrow
      · obtain ⟨x, hx⟩ := (Frozen.mem_iff_row hp.states.ne_nil).1 hrs
        exact (Frozen.target_lt hp.states hx hr).trans (Frozen.lt_behind hp.states hx)
    have hfresh' : ∀ rs ∈ q.states, ∀ r ∈ rs, r.target ≠ b := by
      rintro rs hrs r hr rfl
      exact absurd (hbefore rs hrs r hr) (by omega)
    rw [← hstates] at harcs
    obtain ⟨a, p', hrest, hp', hstored, hfresh'', harcs'⟩ := ih hq (.inr ⟨_, hrow⟩) hfresh'
      (fun g hg => hframes g (List.mem_cons_of_mem f hg)) (by
        rw [harcs, ← Nat.add_assoc frames.length]
        exact hroom)
    refine ⟨a, p', ?_, hp', hstored, hfresh'', ?_⟩
    · rw [List.length_cons, List.cons_append, freezeEach, hok]
      exact hrest
    · rw [harcs', harcs, List.length_cons, Nat.add_assoc]

namespace Pool

variable {p : Pool}

/-- A state is new if it leads to one to which nothing has led before. -/
theorem freeze_pair_full (hp : p.Kept) {a : UInt32} (ha : Frozen.Stored p.states a)
    (hfresh : ∀ rs ∈ p.states, ∀ r ∈ rs, r.target ≠ a) (hfull : 2 ^ 32 ≤ Record.size * (3 + Frozen.arcs p.states))
    {c d : UInt8} (hcd : c < d) (isFinal : Bool) :
    p.freeze [⟨c, isFinal, a⟩, ⟨d, true, 0⟩] = .error .capacityExceeded := by
  refine freeze_full hp ⟨by simp, by simpa using hcd, ?_⟩ ?_ ?_
  · intro r hr
    rcases List.mem_pair.1 hr with rfl | rfl
    · exact ha.imp (fun hzero => ⟨hzero, trivial⟩) id
    · exact .inl ⟨rfl, trivial⟩
  · intro hmem
    exact hfresh _ hmem _ List.mem_cons_self rfl
  · rw [Frozen.behind, Frozen.arcs_cons, ← Nat.add_assoc]
    exact hfull

theorem freeze_single (hp : p.Kept) (hroom : Record.size * (2 + Frozen.arcs p.states) < 2 ^ 32) (c : UInt8)
    (isFinal : Bool) : ∃ a p', p.freeze [⟨c, isFinal, 0⟩] = .ok (a, p') ∧ [⟨c, isFinal, 0⟩] ∈ p'.states := by
  have hproper : Frozen.ProperOr (fun _ => True) p.states [⟨c, isFinal, 0⟩] := by
    refine ⟨by simp, by simp, fun r hr => ?_⟩
    obtain rfl := List.mem_singleton.1 hr
    exact .inl ⟨rfl, trivial⟩
  rcases freeze_cases hp hproper with ⟨a, p', hok, hp', hrow, -⟩ | ⟨-, -, hfull⟩
  · exact ⟨a, p', hok, (Frozen.mem_iff_row hp'.states.ne_nil).2 ⟨_, hrow⟩⟩
  · rw [Frozen.behind, Frozen.arcs_cons, ← Nat.add_assoc] at hfull
    exact absurd hroom (Nat.not_lt.2 hfull)

end Pool

namespace Builder

section

variable (c : Comparison) {b : Builder} {w : Word} {a : UInt32} {p : Pool} {frames : List Frame}
  (hrefuse : refuse? b.previous w = none)

include hrefuse

theorem call_taken (hfreeze : freezeEach b.pool 0 (b.frames.length - (commonLength (b.previous.getD []) w + 1)) b.frames =
      (none, a, p, frames)) :
    b.call c w =
      (none, ⟨p, extend (commonLength (b.previous.getD []) w) w a frames, some w, b.sequences + 1⟩) := by
  simp only [call, refuseBy_order, hrefuse, hfreeze]

theorem call_full {e : BuildError} (hfreeze : freezeEach b.pool 0
      (b.frames.length - (commonLength (b.previous.getD []) w + 1)) b.frames = (some e, a, p, frames)) :
    b.call c w = (some e, ⟨p, frames, b.previous, b.sequences⟩) := by
  simp only [call, refuseBy_order, hrefuse, hfreeze]

end

/-- A word of which `n` states are frozen so that there is room for one more arc, but not for two. A state with two arcs is
then lost: the path has become shorter than the word taken last, and the state above, which has room, leads nowhere with an
arc that ends no word. -/
theorem reached_lost (c : Comparison) {n : Nat} (hroom : Record.size * (2 + n) < 2 ^ 32)
    (hfull : 2 ^ 32 ≤ Record.size * (3 + n)) : ∃ b b',
    Reached c [([99, 98], some .capacityExceeded), ([99, 97, 98], none), (99 :: 97 :: 97 :: List.replicate n 97, none)] b ∧
    b.previous = some [99, 97, 98] ∧ b.frames.length = 2 ∧
    Reached c [([100], none), ([99, 98], some .capacityExceeded), ([99, 97, 98], none),
      (99 :: 97 :: 97 :: List.replicate n 97, none)] b' ∧
    [⟨97, false, 0⟩] ∈ b'.pool.states := by
  generalize hword : (99 :: 97 :: 97 :: List.replicate n 97 : Word) = w
  let last : Frame := ⟨[], 97, (List.replicate n (97 : UInt8)).isEmpty⟩
  let above : List Frame := [⟨[], 97, false⟩, ⟨[], 99, false⟩]
  have hopen : openPath w [] = openPath (List.replicate n 97) [] ++ last :: above := by
    rw [← hword, ← openPath_append]
    rfl
  have hlength : (openPath (List.replicate n 97) []).length = n := by rw [length_openPath, List.length_replicate]
  have hfirst : empty.call c w = (none, ⟨.empty, openPath w [], some w, 1⟩) := by
    rw [call_eq_none, ← hword]
    rfl
  -- The states of the long word are frozen up to the one that gets a second arc.
  obtain ⟨a, p, hfreeze, hp, hstored, hfresh, harcs⟩ := freezeEach_single Pool.sound_empty (.inl rfl) (by simp [Pool.empty])
    (closed_openPath (List.replicate n 97)) (by
      simp only [hlength, Pool.empty, Frozen.arcs_nil, Record.size] at *
      omega) (last :: above)
  rw [hlength] at hfreeze harcs
  replace harcs : Frozen.arcs p.states = n := harcs
  have hcommon : commonLength w [99, 97, 98] = 2 := by
    rw [← hword]
    rfl
  have hsecond : call c ⟨.empty, openPath w [], some w, 1⟩ [99, 97, 98] =
      (none, ⟨p, extend (commonLength w [99, 97, 98]) [99, 97, 98] a (last :: above), some [99, 97, 98], 2⟩) := by
    refine call_taken c (refuse?_eq_none.2 ⟨by simp, fun p hp => ?_⟩) ?_
    · obtain rfl := Option.mem_some_iff.1 hp
      rw [← hword]
      exact .cons (.cons (.rel (by decide)))
    · have hdeep : (openPath w []).length - (2 + 1) = n := by simp [hopen, hlength, above]
      rw [Option.getD_some, hcommon, hdeep, hopen]
      exact hfreeze
  have hextend : extend 2 [99, 97, 98] a (last :: above) = last.advance a 98 true :: above := rfl
  rw [hcommon, hextend] at hsecond
  have hlost : p.freeze ((last.advance a 98 true).records 0) = .error .capacityExceeded :=
    Pool.freeze_pair_full hp hstored hfresh (by rw [harcs]; exact hfull) (show (97 : UInt8) < 98 by decide) _
  have hthird : call c ⟨p, last.advance a 98 true :: above, some [99, 97, 98], 2⟩ [99, 98] =
      (some .capacityExceeded, ⟨p, above, some [99, 97, 98], 2⟩) := by
    refine call_full c rfl (show freezeEach p 0 1 (last.advance a 98 true :: above) = (_, 0, p, above) from ?_)
    rw [freezeEach, hlost]
  obtain ⟨d, q, hkept, hmem⟩ := Pool.freeze_single hp (by rw [harcs]; exact hroom) 97 false
  have hfourth : call c ⟨p, above, some [99, 97, 98], 2⟩ [100] =
      (none, ⟨q, extend 0 [100] d [⟨[], 99, false⟩], some [100], 3⟩) := by
    refine call_taken c rfl (show freezeEach p 0 1 above = (none, d, q, [⟨[], 99, false⟩]) from ?_)
    have hrecords : Frame.records ⟨[], 97, false⟩ 0 = [⟨97, false, 0⟩] := rfl
    rw [freezeEach, hrecords, hkept]
    rfl
  have h0 : Reached c [] empty := .start
  have h1 := h0.call (comesBack_of_path rfl w)
  rw [hfirst] at h1
  have h2 := h1.call (comesBack_of_path (Frame.path_openPath w []) [99, 97, 98])
  rw [hsecond] at h2
  have h3 := h2.call (w := [99, 98]) fun _ => show commonLength [99, 97, 98] [99, 98] ≤ 3 by decide
  rw [hthird] at h3
  have h4 := h3.call (w := [100]) fun _ => Nat.zero_le _
  rw [hfourth] at h4
  exact ⟨_, _, h3, rfl, rfl, h4, hmem⟩

/-- The path need not be as long as the word taken last, and an arc without a target need not end a word. -/
theorem reached_lost_letters : ∃ b b',
    Reached .wide [([99, 98], some .capacityExceeded), ([99, 97, 98], none),
      (99 :: 97 :: 97 :: List.replicate 715827880 97, none)] b ∧
    b.previous = some [99, 97, 98] ∧ b.frames.length = 2 ∧
    Reached .wide [([100], none), ([99, 98], some .capacityExceeded), ([99, 97, 98], none),
      (99 :: 97 :: 97 :: List.replicate 715827880 97, none)] b' ∧
    [⟨97, false, 0⟩] ∈ b'.pool.states :=
  reached_lost .wide (n := 715827880) (by decide) (by decide)

end Builder

end WordAutomata
