import Mathlib
import WordAutomata.Proofs.OpenPath
import WordAutomata.Proofs.Residual

namespace WordAutomata

namespace Frozen

/-- An arc leads from the state at one address to another address. -/
def Arrow (states : Frozen) (a b : UInt32) : Prop := ∃ rs, row states a.toNat = some rs ∧ ∃ r ∈ rs, r.target = b

/-- A path leads to an address from one of some others. -/
def Live (states : Frozen) (sources : List UInt32) (a : UInt32) : Prop :=
  ∃ b ∈ sources, Relation.ReflTransGen (Arrow states) b a

theorem Live.of_suffix {old new : Frozen} (h : Sound new) (hsuffix : old <:+ new) {sources : List UInt32} {a : UInt32}
    (ha : Live old sources a) : Live new sources a := by
  obtain ⟨b, hb, hpath⟩ := ha
  refine ⟨b, hb, Relation.ReflTransGen.mono ?_ _ _ hpath⟩
  intro x y hxy
  obtain ⟨rs, hrow, hr⟩ := hxy
  exact ⟨rs, row_of_suffix h hsuffix hrow, hr⟩

theorem Live.trans {states : Frozen} {sources sources' : List UInt32} {a : UInt32} (ha : Live states sources a)
    (h : ∀ b ∈ sources, Live states sources' b) : Live states sources' a := by
  obtain ⟨b, hb, hpath⟩ := ha
  obtain ⟨c, hc, hpath'⟩ := h b hb
  exact ⟨c, hc, hpath'.trans hpath⟩

theorem Live.of_mem {states : Frozen} {sources : List UInt32} {a : UInt32} (ha : a ∈ sources) :
    Live states sources a := ⟨a, ha, .refl⟩

theorem Live.mono {states : Frozen} {sources sources' : List UInt32} {a : UInt32} (ha : Live states sources a)
    (h : ∀ b ∈ sources, b ∈ sources') : Live states sources' a :=
  ha.trans fun b hb => .of_mem (h b hb)

theorem Within.cons {states : Frozen} {rs : List Record} (h : Sound (rs :: states)) {W : List Word}
    (hW : Within states W) {u : Word} (hu : {w | w ∈ rs.flatMap (Record.words (words states))} = residual W u) :
    Within (rs :: states) W := by
  intro a rs' ha
  rcases row_cases ha with ⟨hlast, -⟩ | ⟨-, hrow⟩
  · exact ⟨u, by rw [← hu, language, words, if_pos hlast]⟩
  · obtain ⟨v, hv⟩ := hW a rs' hrow
    exact ⟨v, by rw [← hv, language, words_cons h.2.2.2 (.inr ⟨rs', hrow⟩), language]⟩

theorem eq_or_row {old new : Frozen} {rs : List Record} (h : Sound new) (hnew : new = old ∨ new = rs :: old) {a : UInt32}
    (ha : row new a.toNat = some rs) {b : UInt32} {rs' : List Record} (hb : row new b.toNat = some rs') :
    b = a ∨ row old b.toNat = some rs' := by
  rcases hnew with rfl | rfl
  · exact .inr hb
  · rcases row_cases hb with ⟨-, rfl⟩ | ⟨-, hrow⟩
    · exact .inl (UInt32.toNat_inj.1 (row_injective h hb ha))
    · exact .inr hrow

end Frozen

/-- Addresses that closed arcs of open states lead to. -/
def openTargets (frames : List Frame) : List UInt32 := frames.flatMap fun f => f.closed.map Record.target

/-- What holds while words of `W` are added: `child` is the address of what lies below the deepest open state. -/
structure Opened (W : List Word) (p : Pool) (child : UInt32) (frames : List Frame) : Prop where
  pool : p.Sound
  sound : ∀ f ∈ frames, f.Sound p.states
  stored : Frozen.Stored p.states child
  /-- Where nothing lies below, a word ends. -/
  ends : child = 0 → ∀ f ∈ frames.head?, f.isFinal = true
  within : Frozen.Within p.states W
  /-- No frozen state is out of reach. -/
  live : ∀ a rs, Frozen.row p.states a.toNat = some rs → Frozen.Live p.states (child :: openTargets frames) a

/-- The words added so far. -/
def spelled (p : Pool) (child : UInt32) (frames : List Frame) : List Word :=
  Frame.wordsAlong (Frozen.words p.states) frames (Frozen.words p.states child)

namespace Opened

variable {W : List Word} {p p' : Pool} {child a : UInt32} {f : Frame} {frames : List Frame}

theorem leads (h : Opened W p child (f :: frames)) : Frozen.Leads p.states ⟨f.label, f.isFinal, child⟩ := by
  rcases h.stored with hzero | hrow
  · exact .inl ⟨hzero, h.ends hzero f rfl⟩
  · exact .inr hrow

theorem proper (h : Opened W p child (f :: frames)) : Frozen.Proper p.states (f.records child) :=
  (h.sound f (by simp)).proper h.leads

/-- What lies below all open states is what may follow their labels, provided that all words that begin with these
are added. -/
theorem mem_residual {states : Frozen} (hframes : ∀ f ∈ frames, f.Sound states) {below : List Word} (hnil : [] ∉ below)
    (hW : ∀ w ∈ Frame.wordsAlong states.words frames below, w ∈ W)
    (hsealed : ∀ w ∈ W, Frame.path frames <+: w → w ∈ Frame.wordsAlong states.words frames below) :
    {w | w ∈ below} = residual W (Frame.path frames) := by
  ext w
  constructor
  · intro hw
    have hne : w ≠ [] := fun h => hnil (h ▸ hw)
    exact ⟨hne, hW _ ((Frame.append_mem_wordsAlong hframes hne).2 hw)⟩
  · intro hw
    obtain ⟨hne, hw⟩ := hw
    exact (Frame.append_mem_wordsAlong hframes hne).1 (hsealed _ hw (List.prefix_append _ w))

/-- Once its state is frozen, the arcs of the deepest open state are reached from there. -/
theorem live_of_row (h : Opened W p child (f :: frames)) (hp : p'.Sound) (hsuffix : p.states <:+ p'.states)
    (hrow : Frozen.row p'.states a.toNat = some (f.records child)) {b : UInt32} {rs : List Record}
    (hb : Frozen.row p.states b.toNat = some rs) : Frozen.Live p'.states (a :: openTargets frames) b := by
  have harrow {r : Record} (hr : r ∈ f.records child) : Frozen.Live p'.states (a :: openTargets frames) r.target :=
    ⟨a, by simp, .single ⟨_, hrow, r, hr, rfl⟩⟩
  apply ((h.live b rs hb).of_suffix hp.states hsuffix).trans
  intro c hc
  rw [openTargets, List.flatMap_cons, List.mem_cons, List.mem_append] at hc
  rcases hc with rfl | hc | hc
  · exact harrow (r := ⟨f.label, f.isFinal, c⟩) (by simp [Frame.records])
  · obtain ⟨r, hr, rfl⟩ := List.mem_map.1 hc
    exact harrow (by simp [Frame.records, hr])
  · exact .of_mem (List.mem_cons_of_mem a hc)

theorem freeze_cases (h : Opened W p child (f :: frames)) (hW : ∀ w ∈ spelled p child (f :: frames), w ∈ W)
    (hsealed : ∀ w ∈ W, Frame.path frames <+: w → w ∈ spelled p child (f :: frames)) :
    (∃ a p', p.freeze (f.records child) = .ok (a, p') ∧ Opened W p' a frames ∧
      spelled p' a frames = spelled p child (f :: frames)) ∨
    p.freeze (f.records child) = .error .capacityExceeded ∧
      2 ^ 32 ≤ Record.size * (1 + (neededArcs W).ncard) := by
  have hframes : ∀ g ∈ frames, g.Sound p.states := fun g hg => h.sound g (List.mem_cons_of_mem f hg)
  have hbelow : {w | w ∈ (f.records child).flatMap (Record.words (Frozen.words p.states))} =
      residual W (Frame.path frames) := by
    rw [Frame.flatMap_records]
    exact mem_residual hframes (f.nil_notMem_words _ _) hW hsealed
  rcases Pool.freeze_cases h.pool h.proper with ⟨a, p', hok, hp', hrow, hstates⟩ | ⟨herror, hnew, hsize⟩
  · left
    have hsuffix : p.states <:+ p'.states := by
      rcases hstates with hstates | hstates
      · exact hstates ▸ List.suffix_refl _
      · exact hstates ▸ List.suffix_cons _ _
    have hwords : Frozen.words p'.states a = f.words (Frozen.words p.states) (Frozen.words p.states child) := by
      rw [Frozen.words_eq hp'.states hrow, Frozen.flatMap_words_of_suffix hp'.states hsuffix h.proper.leads,
        Frame.flatMap_records]
    refine ⟨a, p', hok, ⟨hp', ?_, .inr ⟨_, hrow⟩, ?_, ?_, ?_⟩, ?_⟩
    · intro g hg
      exact (hframes g hg).of_suffix hp'.states hsuffix
    · intro hzero
      exact absurd hzero (Frozen.ne_zero_of_row hrow)
    · rcases hstates with hstates | hstates
      · exact hstates ▸ h.within
      · rw [hstates]
        exact h.within.cons (hstates ▸ hp'.states) hbelow
    · intro b rs hb
      rcases Frozen.eq_or_row hp'.states hstates hrow hb with rfl | hb
      · exact .of_mem (by simp)
      · exact h.live_of_row hp' hsuffix hrow hb
    · rw [spelled, spelled, hwords, Frame.wordsAlong_of_suffix hframes hp'.states hsuffix, Frame.wordsAlong]
  · have hall : Frozen.Sound (f.records child :: p.states) := ⟨h.proper, hnew, h.pool.small, h.pool.states⟩
    have harcs := Frozen.arcs_le hall (h.within.cons hall hbelow)
    refine .inr ⟨herror, hsize.trans ?_⟩
    exact Nat.mul_le_mul_left _ (by omega)

end Opened

end WordAutomata
