import Mathlib
import WordAutomata.Builder
import WordAutomata.Proofs.Order

namespace WordAutomata

/-- Words spelled by an arc, given the words spelled from each address. -/
def Record.words (below : UInt32 → List Word) (r : Record) : List Word :=
  (if r.isFinal then [[r.label]] else []) ++ (below r.target).map (r.label :: ·)

theorem Record.cons_mem_words {below : UInt32 → List Word} {r : Record} {c : UInt8} {w : Word} :
    c :: w ∈ r.words below ↔ c = r.label ∧ (w = [] ∧ r.isFinal = true ∨ w ∈ below r.target) := by
  rw [words, List.mem_append, List.mem_map]
  constructor
  · intro hmem
    rcases hmem with h | ⟨v, hv, h⟩
    · split at h
      · rename_i hfinal
        rw [List.mem_singleton, List.cons.injEq] at h
        exact ⟨h.1, .inl ⟨h.2, hfinal⟩⟩
      · simp at h
    · rw [List.cons.injEq] at h
      exact ⟨h.1.symm, .inr (h.2 ▸ hv)⟩
  · intro hmem
    rcases hmem with ⟨rfl, ⟨rfl, hfinal⟩ | hw⟩
    · exact .inl (by simp [hfinal])
    · exact .inr ⟨w, hw, rfl⟩

theorem Record.nil_notMem_words (below : UInt32 → List Word) (r : Record) : [] ∉ r.words below := by
  rw [words]
  split <;> simp

/-- Frozen states, the latest first. -/
abbrev Frozen := List (List Record)

namespace Frozen

/-- Arcs of all states. -/
def arcs (states : Frozen) : Nat := (states.map List.length).sum

/-- The address behind all states. -/
def behind (states : Frozen) : Nat := Record.size * (1 + arcs states)

/-- The state at an address. -/
def row : Frozen → Nat → Option (List Record)
  | [], _ => none
  | rs :: states, a => if a = behind states then some rs else row states a

/-- The words spelled from an address. -/
def words : Frozen → UInt32 → List Word
  | [], _ => []
  | rs :: states, a =>
    if a.toNat = behind states then rs.flatMap (Record.words (words states)) else words states a

/-- A state is the latest one, which stands behind all others, or one of the others. -/
theorem row_cases {rs rs' : List Record} {states : Frozen} {a : Nat} (h : row (rs :: states) a = some rs') :
    a = behind states ∧ rs = rs' ∨ a ≠ behind states ∧ row states a = some rs' := by
  rw [row] at h
  by_cases ha : a = behind states
  · rw [if_pos ha] at h
    exact .inl ⟨ha, Option.some.inj h⟩
  · rw [if_neg ha] at h
    exact .inr ⟨ha, h⟩

theorem row_latest {states : Frozen} (h : behind states < 2 ^ 32) (rs : List Record) :
    row (rs :: states) (UInt32.ofNat (behind states)).toNat = some rs := by
  rw [row, if_pos (UInt32.toNat_ofNat_of_lt' h)]

@[simp] theorem arcs_nil : arcs [] = 0 := rfl

@[simp] theorem arcs_cons (rs : List Record) (states : Frozen) : arcs (rs :: states) = rs.length + arcs states := by
  simp [arcs]

theorem behind_cons (rs : List Record) (states : Frozen) :
    behind (rs :: states) = behind states + Record.size * rs.length := by
  simp only [behind, arcs_cons, Record.size]
  omega

theorem six_le_behind (states : Frozen) : 6 ≤ behind states := by
  simp only [behind, Record.size]
  omega

theorem bounds_of_row {states : Frozen} {a : Nat} {rs : List Record} (h : row states a = some rs) :
    6 ≤ a ∧ a + Record.size * rs.length ≤ behind states := by
  induction states with
  | nil => simp [row] at h
  | cons rs' states ih =>
    rw [behind_cons]
    rcases row_cases h with ⟨rfl, rfl⟩ | ⟨-, hrow⟩
    · exact ⟨six_le_behind states, Nat.le_refl _⟩
    · obtain ⟨hlow, hhigh⟩ := ih hrow
      exact ⟨hlow, by omega⟩

theorem ne_zero_of_row {states : Frozen} {a : UInt32} {rs : List Record} (h : row states a.toNat = some rs) : a ≠ 0 := by
  intro hzero
  have hlow := (bounds_of_row h).1
  rw [hzero, UInt32.toNat_zero] at hlow
  omega

theorem mem_iff_row {states : Frozen} {rs : List Record} (h : ∀ rs ∈ states, rs ≠ []) :
    rs ∈ states ↔ ∃ a, row states a = some rs := by
  induction states with
  | nil => simp [row]
  | cons rs' states ih =>
    have ih := ih fun rs hrs => h rs (List.mem_cons_of_mem _ hrs)
    constructor
    · intro hmem
      rcases List.mem_cons.1 hmem with rfl | hmem
      · exact ⟨behind states, by simp [row]⟩
      · obtain ⟨a, ha⟩ := ih.1 hmem
        have := bounds_of_row ha
        have hpos : 0 < rs.length := List.length_pos_iff.2 (h rs (List.mem_cons_of_mem _ hmem))
        have hne : a ≠ behind states := by
          simp only [Record.size] at this
          omega
        exact ⟨a, by rw [row, if_neg hne, ha]⟩
    · rintro ⟨a, ha⟩
      rcases row_cases ha with ⟨-, rfl⟩ | ⟨-, hrow⟩
      · exact List.mem_cons_self
      · exact List.mem_cons_of_mem _ (ih.2 ⟨a, hrow⟩)

/-- What an arc of a state may be: one without a target, of which something is known, or one that leads to a state stored
before. -/
def LeadsOr (ends : Record → Prop) (states : Frozen) (r : Record) : Prop :=
  r.target = 0 ∧ ends r ∨ ∃ rs, row states r.target.toNat = some rs

/-- An arc that ends words, or leads to a state stored before. -/
abbrev Leads (states : Frozen) (r : Record) : Prop := LeadsOr (fun r => r.isFinal = true) states r

/-- An address from which something is known to be spelled: that of a state, or the one that stands for no state. -/
def Stored (states : Frozen) (a : UInt32) : Prop := a = 0 ∨ ∃ rs, row states a.toNat = some rs

variable {ends : Record → Prop}

theorem LeadsOr.stored {states : Frozen} {r : Record} (h : LeadsOr ends states r) : Stored states r.target :=
  h.imp And.left id

/-- A state with arcs in ascending order of their labels. -/
structure ProperOr (ends : Record → Prop) (states : Frozen) (rs : List Record) : Prop where
  ne_nil : rs ≠ []
  ascending : rs.Pairwise fun r s => r.label < s.label
  leads : ∀ r ∈ rs, LeadsOr ends states r

abbrev Proper (states : Frozen) (rs : List Record) : Prop := ProperOr (fun r => r.isFinal = true) states rs

/-- Every state leads to states stored before, and no two are the same. -/
def SoundOr (ends : Record → Prop) : Frozen → Prop
  | [] => True
  | rs :: states => ProperOr ends states rs ∧ rs ∉ states ∧ behind states < 2 ^ 32 ∧ SoundOr ends states

abbrev Sound (states : Frozen) : Prop := SoundOr (fun r => r.isFinal = true) states

theorem SoundOr.ne_nil {states : Frozen} (h : SoundOr ends states) : ∀ rs ∈ states, rs ≠ [] := by
  induction states with
  | nil => simp
  | cons rs states ih =>
    intro rs' hrs
    rcases List.mem_cons.1 hrs with rfl | hrs
    · exact h.1.ne_nil
    · exact ih h.2.2.2 rs' hrs

/-- A state stored later leaves the earlier ones where they are. -/
theorem row_cons {states : Frozen} {rs : List Record} {a : Nat} (ha : a < behind states) :
    row (rs :: states) a = row states a := by
  rw [row, if_neg (Nat.ne_of_lt ha)]

theorem lt_behind {states : Frozen} (h : SoundOr ends states) {a : Nat} {rs : List Record} (ha : row states a = some rs) :
    a < behind states := by
  have hpos : 0 < rs.length := List.length_pos_iff.2 (h.ne_nil rs ((mem_iff_row h.ne_nil).2 ⟨a, ha⟩))
  have := bounds_of_row ha
  simp only [Record.size] at this
  omega

theorem row_cons_of_row {states : Frozen} (h : SoundOr ends states) {a : Nat} {rs new : List Record}
    (ha : row states a = some rs) : row (new :: states) a = some rs := by
  rw [row_cons (lt_behind h ha), ha]

theorem LeadsOr.cons {states : Frozen} (h : SoundOr ends states) {r : Record} (hr : LeadsOr ends states r)
    (rs : List Record) : LeadsOr ends (rs :: states) r := by
  rcases hr with hr | ⟨rs', hr⟩
  · exact .inl hr
  · exact .inr ⟨rs', row_cons_of_row h hr⟩

@[simp] theorem words_zero (states : Frozen) : words states 0 = [] := by
  induction states with
  | nil => rfl
  | cons rs states ih =>
    have := six_le_behind states
    rw [words, if_neg (by simp; omega), ih]

theorem nil_notMem_words (states : Frozen) (a : UInt32) : [] ∉ words states a := by
  induction states with
  | nil => simp [words]
  | cons rs states ih =>
    rw [words]
    split
    · rw [List.mem_flatMap]
      intro ⟨r, _, h⟩
      exact Record.nil_notMem_words _ r h
    · exact ih

theorem words_cons {states : Frozen} (h : SoundOr ends states) {a : UInt32} (ha : Stored states a) (rs : List Record) :
    words (rs :: states) a = words states a := by
  rcases ha with rfl | ⟨rs', ha⟩
  · rw [words_zero, words_zero]
  · rw [words, if_neg (Nat.ne_of_lt (lt_behind h ha))]

theorem recordWords_cons {states : Frozen} (h : Sound states) {r : Record} (hr : Leads states r) (rs : List Record) :
    r.words (words (rs :: states)) = r.words (words states) := by
  rw [Record.words, Record.words, words_cons h hr.stored]

theorem flatMap_words_cons {states : Frozen} (h : Sound states) {rs : List Record} (hrs : ∀ r ∈ rs, Leads states r)
    (new : List Record) : rs.flatMap (Record.words (words (new :: states))) = rs.flatMap (Record.words (words states)) :=
  List.flatMap_congr fun r hr => recordWords_cons h (hrs r hr) new

theorem proper_of_row {states : Frozen} (h : SoundOr ends states) {a : Nat} {rs : List Record} (ha : row states a = some rs) :
    ProperOr ends states rs := by
  induction states with
  | nil => simp [row] at ha
  | cons new states ih =>
    obtain ⟨hnew, -, -, h⟩ := h
    have hp : ProperOr ends states rs := by
      rcases row_cases ha with ⟨-, rfl⟩ | ⟨-, hrow⟩
      · exact hnew
      · exact ih h hrow
    exact ⟨hp.ne_nil, hp.ascending, fun r hr => (hp.leads r hr).cons h new⟩

theorem words_eq {states : Frozen} (h : Sound states) {a : UInt32} {rs : List Record}
    (ha : row states a.toNat = some rs) : words states a = rs.flatMap (Record.words (words states)) := by
  induction states with
  | nil => simp [row] at ha
  | cons new states ih =>
    obtain ⟨hnew, -, -, h⟩ := h
    rw [words]
    rcases row_cases ha with ⟨hlast, rfl⟩ | ⟨hother, hrow⟩
    · rw [if_pos hlast, flatMap_words_cons h hnew.leads]
    · rw [if_neg hother, ih h hrow, flatMap_words_cons h (proper_of_row h hrow).leads]

theorem row_injective {states : Frozen} (h : SoundOr ends states) {a b : Nat} {rs : List Record}
    (ha : row states a = some rs) (hb : row states b = some rs) : a = b := by
  induction states with
  | nil => simp [row] at ha
  | cons new states ih =>
    obtain ⟨-, hnew, -, h⟩ := h
    have hmem {c : Nat} (hc : row states c = some rs) : rs ∈ states := (mem_iff_row h.ne_nil).2 ⟨c, hc⟩
    rcases row_cases ha with ⟨hlast, rfl⟩ | ⟨-, hrow⟩
    · rcases row_cases hb with ⟨hlast', -⟩ | ⟨-, hrow'⟩
      · exact hlast.trans hlast'.symm
      · exact absurd (hmem hrow') hnew
    · rcases row_cases hb with ⟨-, rfl⟩ | ⟨-, hrow'⟩
      · exact absurd (hmem hrow) hnew
      · exact ih h hrow hrow'

theorem nodup_of_ascending {rs : List Record} (h : rs.Pairwise fun r s => r.label < s.label) : rs.Nodup := by
  apply h.imp
  intro r s hlt heq
  rw [heq] at hlt
  exact UInt8.lt_irrefl _ hlt

/-- In ascending order, an arc is found by its label. -/
theorem eq_of_label {rs : List Record} (h : rs.Pairwise fun r s => r.label < s.label) {r s : Record} (hr : r ∈ rs)
    (hs : s ∈ rs) (heq : r.label = s.label) : r = s := by
  induction rs with
  | nil => simp at hr
  | cons x rs ih =>
    obtain ⟨hx, h⟩ := List.pairwise_cons.1 h
    rw [List.mem_cons] at hr hs
    rcases hr with rfl | hr <;> rcases hs with rfl | hs
    · rfl
    · exact absurd heq (UInt8.ne_of_lt (hx s hs))
    · exact absurd heq.symm (UInt8.ne_of_lt (hx r hr))
    · exact ih h hr hs

/-- The words that begin with the label of an arc go on behind this arc. -/
theorem cons_mem_flatMap {below : UInt32 → List Word} {rs : List Record} (h : rs.Pairwise fun r s => r.label < s.label)
    {r : Record} (hr : r ∈ rs) {w : Word} :
    r.label :: w ∈ rs.flatMap (Record.words below) ↔ w = [] ∧ r.isFinal = true ∨ w ∈ below r.target := by
  rw [List.mem_flatMap]
  constructor
  · intro ⟨s, hs, hw⟩
    obtain ⟨hlabel, hw⟩ := Record.cons_mem_words.1 hw
    rwa [eq_of_label h hr hs hlabel]
  · intro hw
    exact ⟨r, hr, Record.cons_mem_words.2 ⟨rfl, hw⟩⟩

theorem words_ne_nil {states : Frozen} (h : Sound states) {a : UInt32} {rs : List Record}
    (ha : row states a.toNat = some rs) : words states a ≠ [] := by
  induction states generalizing a rs with
  | nil => simp [row] at ha
  | cons new states ih =>
    obtain ⟨hnew, -, -, h⟩ := h
    rw [words]
    rcases row_cases ha with ⟨hlast, -⟩ | ⟨hother, hrow⟩
    · obtain ⟨r, hr⟩ := List.exists_mem_of_ne_nil new hnew.ne_nil
      have hwords : r.words (words states) ≠ [] := by
        rcases hnew.leads r hr with ⟨-, hfinal⟩ | ⟨rs', hrow⟩
        · simp [Record.words, hfinal]
        · simp [Record.words, ih h hrow]
      rw [if_pos hlast]
      intro hnil
      exact hwords (List.flatMap_eq_nil_iff.1 hnil r hr)
    · rw [if_neg hother]
      exact ih h hrow

theorem target_lt {states : Frozen} (h : SoundOr ends states) {a : Nat} {rs : List Record} (ha : row states a = some rs)
    {r : Record} (hr : r ∈ rs) : r.target.toNat < a := by
  induction states with
  | nil => simp [row] at ha
  | cons new states ih =>
    obtain ⟨hnew, -, -, h⟩ := h
    rcases row_cases ha with ⟨rfl, rfl⟩ | ⟨-, hrow⟩
    · rcases hnew.leads r hr with ⟨hzero, -⟩ | ⟨rs', hrow⟩
      · have hlow := six_le_behind states
        rw [hzero, UInt32.toNat_zero]
        omega
      · exact lt_behind h hrow
    · exact ih h hrow

section

variable {states : Frozen} (h : Sound states)

include h

theorem target_eq_of_words {r r' : Record} (hr : Leads states r) (hr' : Leads states r')
    (hwords : ∀ w, w ∈ words states r.target ↔ w ∈ words states r'.target)
    (hrows : ∀ rs rs', row states r.target.toNat = some rs → row states r'.target.toNat = some rs' → r.target = r'.target) :
    r.target = r'.target := by
  have hnil {s : Record} (hs : Leads states s) (hempty : ∀ w, w ∉ words states s.target) : s.target = 0 := by
    rcases hs with hs | ⟨rs, hs⟩
    · exact hs.1
    · exact absurd (List.eq_nil_iff_forall_not_mem.2 hempty) (words_ne_nil h hs)
  rcases hr with ⟨hzero, -⟩ | ⟨rs, hrow⟩
  · rw [hzero, words_zero] at hwords
    rw [hzero, hnil hr' fun w hw => by simpa using (hwords w).2 hw]
  · rcases hr' with ⟨hzero, -⟩ | ⟨rs', hrow'⟩
    · rw [hzero, words_zero] at hwords
      rw [hzero, hnil (.inr ⟨rs, hrow⟩) fun w hw => by simpa using (hwords w).1 hw]
    · exact hrows rs rs' hrow hrow'

theorem exists_cons_mem {a : UInt32} {rs : List Record} (ha : row states a.toNat = some rs) {r : Record} (hr : r ∈ rs) :
    ∃ w, r.label :: w ∈ words states a := by
  have hp := proper_of_row h ha
  rw [words_eq h ha]
  rcases hp.leads r hr with ⟨-, hfinal⟩ | ⟨rs', hrow⟩
  · exact ⟨[], (cons_mem_flatMap hp.ascending hr).2 (.inl ⟨rfl, hfinal⟩)⟩
  · obtain ⟨w, hw⟩ := List.exists_mem_of_ne_nil _ (words_ne_nil h hrow)
    exact ⟨w, (cons_mem_flatMap hp.ascending hr).2 (.inr hw)⟩

theorem exists_label {a : UInt32} {rs : List Record} (ha : row states a.toNat = some rs) {c : UInt8} {w : Word}
    (hw : c :: w ∈ words states a) : ∃ r ∈ rs, c = r.label := by
  rw [words_eq h ha, List.mem_flatMap] at hw
  obtain ⟨r, hr, hw⟩ := hw
  exact ⟨r, hr, (Record.cons_mem_words.1 hw).1⟩

/-- States that spell the same words are one: their arcs have the same labels and marks and lead to states that spell the
same words, and no two states have the same arcs. -/
theorem eq_of_words {a b : UInt32} {rs rs' : List Record} (ha : row states a.toNat = some rs)
    (hb : row states b.toNat = some rs') (hwords : ∀ w, w ∈ words states a ↔ w ∈ words states b) : a = b := by
  induction hn : a.toNat using Nat.strongRecOn generalizing a b rs rs' with
  | ind n ih =>
    have hp := proper_of_row h ha
    have hp' := proper_of_row h hb
    -- Arcs with one label go on with the same words; their targets stand earlier, so that they are the same by induction.
    have hsame {r r' : Record} (hr : r ∈ rs) (hr' : r' ∈ rs') (hlabel : r.label = r'.label) : r = r' := by
      have hgo (w : Word) : w = [] ∧ r.isFinal = true ∨ w ∈ words states r.target ↔
          w = [] ∧ r'.isFinal = true ∨ w ∈ words states r'.target := by
        rw [← cons_mem_flatMap hp.ascending hr, ← cons_mem_flatMap hp'.ascending hr', ← words_eq h ha, ← words_eq h hb,
          hwords, hlabel]
      have hfinal : r.isFinal = r'.isFinal := by
        simpa [nil_notMem_words] using hgo []
      have hbelow (w : Word) : w ∈ words states r.target ↔ w ∈ words states r'.target := by
        cases w with
        | nil => simp [nil_notMem_words]
        | cons c w => simpa using hgo (c :: w)
      have htarget := target_eq_of_words h (hp.leads r hr) (hp'.leads r' hr') hbelow fun rows rows' hrow hrow' =>
        ih _ (hn ▸ target_lt h ha hr) hrow hrow' hbelow rfl
      cases r
      cases r'
      simp_all
    -- Every arc begins some word, which the other state can only spell by an arc with this label.
    have hmem (r : Record) : r ∈ rs ↔ r ∈ rs' := by
      constructor
      · intro hr
        obtain ⟨w, hw⟩ := exists_cons_mem h ha hr
        obtain ⟨r', hr', hlabel⟩ := exists_label h hb ((hwords _).1 hw)
        rwa [hsame hr hr' hlabel]
      · intro hr'
        obtain ⟨w, hw⟩ := exists_cons_mem h hb hr'
        obtain ⟨r', hr, hlabel⟩ := exists_label h ha ((hwords _).2 hw)
        rwa [← hsame hr hr' hlabel.symm]
    have hrows : rs = rs' := by
      refine List.Perm.eq_of_pairwise ?_ hp.ascending hp'.ascending
        ((List.perm_ext_iff_of_nodup (nodup_of_ascending hp.ascending) (nodup_of_ascending hp'.ascending)).2 hmem)
      intro r s _ _ hrs hsr
      exact absurd hrs (UInt8.lt_asymm hsr)
    exact UInt32.toNat_inj.1 (row_injective h ha (hrows ▸ hb))

end

end Frozen

end WordAutomata
