import Mathlib
import WordAutomata.Proofs.Frozen

namespace WordAutomata

/-- The ends that complete a beginning to one of some words. -/
def residual (words : List Word) (u : Word) : Set Word := {v | v ≠ [] ∧ u ++ v ∈ words}

/-- The arcs that an automaton of some words cannot do without. -/
def neededArcs (words : List Word) : Set (Set Word × UInt8) :=
  {x | ∃ u, x.1 = residual words u ∧ ∃ v, x.2 :: v ∈ x.1}

/-- Which words there are is all that matters. -/
theorem neededArcs_congr {V W : List Word} (h : ∀ w, w ∈ V ↔ w ∈ W) : neededArcs V = neededArcs W := by
  have hresidual (u : Word) : residual V u = residual W u := by
    ext v
    exact and_congr_right fun _ => h (u ++ v)
  ext x
  simp only [neededArcs, hresidual]

/-- The places of labels in words, each with what comes before it. -/
def labelPlaces (words : List Word) : List (Word × UInt8) :=
  words.flatMap fun w => w.zipIdx.map fun x => (w.take x.2, x.1)

theorem length_labelPlaces (words : List Word) : (labelPlaces words).length = (words.map List.length).sum := by
  simp [labelPlaces, List.length_flatMap]

theorem neededArcs_subset (words : List Word) :
    neededArcs words ⊆ (fun x => (residual words x.1, x.2)) '' {x | x ∈ labelPlaces words} := by
  intro ⟨R, c⟩ hneeded
  obtain ⟨u, rfl, v, -, hv⟩ := hneeded
  refine ⟨(u, c), ?_, rfl⟩
  refine List.mem_flatMap.2 ⟨u ++ c :: v, hv, List.mem_map.2 ⟨(c, u.length), ?_, by simp⟩⟩
  rw [List.mem_zipIdx_iff_getElem?]
  simp

theorem finite_neededArcs (words : List Word) : (neededArcs words).Finite :=
  ((List.finite_toSet (labelPlaces words)).image _).subset (neededArcs_subset words)

theorem ncard_neededArcs_le (words : List Word) : (neededArcs words).ncard ≤ (words.map List.length).sum := by
  have hfinite := List.finite_toSet (labelPlaces words)
  calc (neededArcs words).ncard
      ≤ ((fun x => (residual words x.1, x.2)) '' {x | x ∈ labelPlaces words}).ncard :=
        Set.ncard_le_ncard (neededArcs_subset words) (hfinite.image _)
    _ ≤ {x | x ∈ labelPlaces words}.ncard := Set.ncard_image_le hfinite
    _ ≤ (labelPlaces words).length := by
        rw [← List.coe_toFinset, Set.ncard_coe_finset]
        exact List.toFinset_card_le _
    _ = (words.map List.length).sum := length_labelPlaces words

namespace Frozen

/-- The arcs of all states: the address of the state, and the label. -/
def arcList : Frozen → List (UInt32 × UInt8)
  | [] => []
  | rs :: states => rs.map (fun r => (UInt32.ofNat (behind states), r.label)) ++ arcList states

theorem length_arcList (states : Frozen) : (arcList states).length = arcs states := by
  induction states with
  | nil => rfl
  | cons rs states ih => simp [arcList, ih]

variable {states : Frozen}

theorem mem_arcList (h : Sound states) {a : UInt32} {c : UInt8} :
    (a, c) ∈ arcList states ↔ ∃ rs, row states a.toNat = some rs ∧ ∃ r ∈ rs, r.label = c := by
  induction states with
  | nil => simp [arcList, row]
  | cons new states ih =>
    obtain ⟨-, -, hsmall, h⟩ := h
    rw [arcList, List.mem_append, ih h, List.mem_map]
    constructor
    · intro hmem
      rcases hmem with ⟨r, hr, heq⟩ | ⟨rs, hrow, hlabel⟩
      · simp only [Prod.mk.injEq] at heq
        exact ⟨new, heq.1 ▸ row_latest hsmall new, r, hr, heq.2⟩
      · exact ⟨rs, row_cons_of_row h hrow, hlabel⟩
    · rintro ⟨rs, hrow, r, hr, hlabel⟩
      rcases row_cases hrow with ⟨ha, rfl⟩ | ⟨-, hrow⟩
      · exact .inl ⟨r, hr, by rw [← ha, UInt32.ofNat_toNat, hlabel]⟩
      · exact .inr ⟨rs, hrow, r, hr, hlabel⟩

theorem nodup_arcList (h : Sound states) : (arcList states).Nodup := by
  induction states with
  | nil => exact List.nodup_nil
  | cons new states ih =>
    obtain ⟨hnew, -, hsmall, h⟩ := h
    have hbehind : (UInt32.ofNat (behind states)).toNat = behind states := UInt32.toNat_ofNat_of_lt' hsmall
    refine List.nodup_append.2 ⟨?_, ih h, ?_⟩
    · refine List.pairwise_map.2 (hnew.ascending.imp ?_)
      intro r s hlt heq
      exact UInt8.ne_of_lt hlt (Prod.mk.inj heq).2
    · intro x hx y hy hxy
      obtain ⟨r, -, rfl⟩ := List.mem_map.1 hx
      obtain ⟨rs, hrow, -⟩ := (mem_arcList h).1 (hxy ▸ hy)
      have := lt_behind h hrow
      omega

/-- Where the states are. -/
def addresses : Frozen → List UInt32
  | [] => []
  | _ :: states => UInt32.ofNat (behind states) :: addresses states

theorem mem_addresses (h : Sound states) {a : UInt32} : a ∈ addresses states ↔ ∃ rs, row states a.toNat = some rs := by
  induction states with
  | nil => simp [addresses, row]
  | cons new states ih =>
    obtain ⟨-, -, hsmall, h⟩ := h
    rw [addresses, List.mem_cons, ih h]
    constructor
    · intro ha
      rcases ha with rfl | ⟨rs, hrow⟩
      · exact ⟨new, row_latest hsmall new⟩
      · exact ⟨rs, row_cons_of_row h hrow⟩
    · rintro ⟨rs, hrow⟩
      rcases row_cases hrow with ⟨ha, -⟩ | ⟨-, hrow⟩
      · exact .inl (by rw [← ha, UInt32.ofNat_toNat])
      · exact .inr ⟨rs, hrow⟩

theorem nodup_addresses (h : Sound states) : (addresses states).Nodup := by
  induction states with
  | nil => exact List.nodup_nil
  | cons new states ih =>
    obtain ⟨-, -, hsmall, h⟩ := h
    refine List.nodup_cons.2 ⟨?_, ih h⟩
    intro hmem
    obtain ⟨rs, hrow⟩ := (mem_addresses h).1 hmem
    have hlt := lt_behind h hrow
    rw [UInt32.toNat_ofNat_of_lt' hsmall] at hlt
    exact Nat.lt_irrefl _ hlt

theorem sum_addresses (h : Sound states) {n : UInt32 → Nat}
    (hn : ∀ a rs, row states a.toNat = some rs → n a = rs.length) : ((addresses states).map n).sum = arcs states := by
  induction states with
  | nil => rfl
  | cons new states ih =>
    obtain ⟨-, -, hsmall, h⟩ := h
    have hlatest := hn _ new (row_latest hsmall new)
    rw [addresses, List.map_cons, List.sum_cons, arcs_cons, hlatest, ih h fun a rs ha => hn a rs (row_cons_of_row h ha)]

theorem exists_row {i : Nat} (hlow : 0 < i) (hhigh : Record.size * i < behind states) :
    ∃ a rs j, row states a = some rs ∧ j < rs.length ∧ Record.size * i = a + Record.size * j := by
  induction states with
  | nil =>
    simp only [behind, arcs_nil, Record.size] at hhigh
    omega
  | cons new states ih =>
    by_cases hi : Record.size * i < behind states
    · obtain ⟨a, rs, j, hrow, hj, heq⟩ := ih hi
      exact ⟨a, rs, j, by rw [row_cons (by omega), hrow], hj, heq⟩
    · rw [behind_cons] at hhigh
      simp only [behind, Record.size] at hi hhigh ⊢
      refine ⟨behind states, new, i - (1 + arcs states), by simp [row], by omega, ?_⟩
      simp only [behind, Record.size]
      omega

/-- The words spelled from an address, as a set. -/
def language (states : Frozen) (a : UInt32) : Set Word := {w | w ∈ words states a}

theorem language_injective (h : Sound states) {a b : UInt32} {rs rs' : List Record} (ha : row states a.toNat = some rs)
    (hb : row states b.toNat = some rs') (heq : language states a = language states b) : a = b :=
  eq_of_words h ha hb fun w => Set.ext_iff.1 heq w

/-- Every state spells what may follow some beginning. -/
def Within (states : Frozen) (W : List Word) : Prop :=
  ∀ a rs, row states a.toNat = some rs → ∃ u, language states a = residual W u

/-- All that may follow some beginning is spelled from a state. -/
def Covers (states : Frozen) (W : List Word) : Prop :=
  ∀ u, (residual W u).Nonempty → ∃ a rs, row states a.toNat = some rs ∧ language states a = residual W u

theorem injOn_arcList (h : Sound states) :
    Set.InjOn (fun x : UInt32 × UInt8 => (language states x.1, x.2)) {x | x ∈ arcList states} := by
  intro ⟨a, c⟩ ha ⟨b, d⟩ hb heq
  obtain ⟨hlanguage, rfl⟩ := Prod.mk.inj heq
  obtain ⟨rs, hrow, -⟩ := (mem_arcList h).1 ha
  obtain ⟨rs', hrow', -⟩ := (mem_arcList h).1 hb
  rw [language_injective h hrow hrow' hlanguage]

theorem ncard_arcList (h : Sound states) :
    ((fun x : UInt32 × UInt8 => (language states x.1, x.2)) '' {x | x ∈ arcList states}).ncard = arcs states := by
  rw [(injOn_arcList h).ncard_image, ← List.coe_toFinset, Set.ncard_coe_finset,
    List.toFinset_card_of_nodup (nodup_arcList h), length_arcList]

theorem image_arcList_subset (h : Sound states) {W : List Word} (hW : Within states W) :
    (fun x : UInt32 × UInt8 => (language states x.1, x.2)) '' {x | x ∈ arcList states} ⊆ neededArcs W := by
  intro x hx
  obtain ⟨⟨a, c⟩, ha, rfl⟩ := hx
  obtain ⟨rs, hrow, r, hr, rfl⟩ := (mem_arcList h).1 ha
  obtain ⟨u, hu⟩ := hW a rs hrow
  exact ⟨u, hu, exists_cons_mem h hrow hr⟩

theorem arcs_le (h : Sound states) {W : List Word} (hW : Within states W) : arcs states ≤ (neededArcs W).ncard := by
  rw [← ncard_arcList h]
  exact Set.ncard_le_ncard (image_arcList_subset h hW) (finite_neededArcs W)

theorem arcs_eq (h : Sound states) {W : List Word} (hW : Within states W) (hcovers : Covers states W) :
    arcs states = (neededArcs W).ncard := by
  rw [← ncard_arcList h]
  congr 1
  apply (image_arcList_subset h hW).antisymm
  intro ⟨R, c⟩ hneeded
  obtain ⟨u, rfl, v, hv⟩ := hneeded
  obtain ⟨a, rs, hrow, hlanguage⟩ := hcovers u ⟨_, hv⟩
  have hmem : c :: v ∈ words states a := by
    rw [← hlanguage] at hv
    exact hv
  obtain ⟨r, hr, rfl⟩ := exists_label h hrow hmem
  exact ⟨(a, r.label), (mem_arcList h).2 ⟨rs, hrow, r, hr, rfl⟩, Prod.ext hlanguage rfl⟩

end Frozen

end WordAutomata
