import WordAutomata.Proofs.Settling

namespace WordAutomata

namespace RowFormat

/-- The offsets that so many passes have found, each from those of the one before. At first there are none. -/
def found (F : RowFormat) (rows : List PlacedRow) : Nat → Array Nat
  | 0 => #[]
  | k + 1 => (F.pass rows (F.found rows k)).offsets

/-- The pass that so many others have come before. -/
def passAt (F : RowFormat) (rows : List PlacedRow) (k : Nat) : Pass := F.pass rows (F.found rows k)

/-- There is room for an offset unless it is beyond what stands for none. -/
structure Bounded (F : RowFormat) : Prop where
  fits_iff : ∀ (address : Nat → Nat) place r, F.fits address place r = true ↔ address place ≤ F.unplaced

variable {F : RowFormat} {rows : List PlacedRow}

theorem Bounded.fits_step_iff (hF : F.Bounded) (before : Array Nat) (p : Pass) (r : PlacedRow) :
    (F.step before p r).fits = true ↔ p.fits = true ∧ p.body.size ≤ F.unplaced := by
  have hown : F.address before (p.offsets.push p.body.size) p.offsets.size = p.body.size := by
    rw [address_eq, if_pos (by rw [Array.size_push]; omega), placed_push, if_pos rfl]
  have hfits := hF.fits_iff (F.address before (p.offsets.push p.body.size)) p.offsets.size r
  rw [hown] at hfits
  rw [step_fits, Bool.and_eq_true, hfits]

theorem Bounded.fits_foldl_iff (hF : F.Bounded) (rows : List PlacedRow) (before : Array Nat) {p : Pass}
    (hp : p.fits = true ↔ ∀ place, F.placed p.offsets place ≤ F.unplaced) :
    (rows.foldl (F.step before) p).fits = true ↔
      ∀ place, F.placed (rows.foldl (F.step before) p).offsets place ≤ F.unplaced := by
  induction rows generalizing p with
  | nil => exact hp
  | cons r rows ih =>
    apply ih
    rw [hF.fits_step_iff, hp, step_offsets]
    constructor
    · rintro ⟨hbefore, hsize⟩ place
      rw [placed_push]
      split
      · exact hsize
      · exact hbefore place
    · intro hall
      refine ⟨fun place => ?_, ?_⟩
      · by_cases hplace : place = p.offsets.size
        · rw [placed_of_size_le (Nat.le_of_eq hplace.symm)]
        · simpa [placed_push, hplace] using hall place
      · simpa [placed_push] using hall p.offsets.size

/-- A pass has room for everything if and only if no offset that it finds is beyond what stands for none. -/
theorem Bounded.fits_pass_iff (hF : F.Bounded) (rows : List PlacedRow) (before : Array Nat) :
    (F.pass rows before).fits = true ↔ ∀ place, F.placed (F.pass rows before).offsets place ≤ F.unplaced :=
  hF.fits_foldl_iff rows before (iff_of_true rfl fun _ => Nat.le_refl _)

theorem settle_of_narrow {before : Array Nat} (h : (F.pass rows before).fits = false) (passes : Nat) :
    F.settle rows (passes + 1) before = .tooNarrow (F.pass rows before).offsets := by
  simp [settle, h]

section

variable (hF : F.Coded) (hroom : F.Bounded) (hfirst : (F.passAt rows 0).fits = true)

include hF hroom hfirst

/-- As soon as there is room for the first pass, no pass is behind the one before. -/
theorem passAt_ahead (k : Nat) : F.Ahead (F.passAt rows (k + 1)) (F.passAt rows k) := by
  -- The first pass starts from addresses that are as large as any with room, each other one from those of the pass before.
  induction k with
  | zero =>
    have hbelow := (hroom.fits_pass_iff rows #[]).1 hfirst
    exact Ahead.pass hF (fun place => VCode.length_code_mono (hbelow place)) rows
  | succ k ih => exact Ahead.pass hF (fun place => VCode.length_code_mono (ih.placed_le place)) rows

theorem fits_passAt (k : Nat) : (F.passAt rows k).fits = true := by
  induction k with
  | zero => exact hfirst
  | succ k ih => exact (passAt_ahead hF hroom hfirst k).fits ih

theorem placed_found_le (k place : Nat) : F.placed (F.found rows (k + 1)) place ≤ F.placed (F.found rows k) place := by
  cases k with
  | zero => exact (hroom.fits_pass_iff rows #[]).1 hfirst place
  | succ k => exact (passAt_ahead hF hroom hfirst k).placed_le place

/-- Passes that went on for ever would never settle. -/
theorem exists_found_eq : ∃ k, F.found rows (k + 1) = F.found rows k := by
  by_contra hnone
  have hne (k : Nat) : (F.passAt rows k).offsets ≠ F.found rows k := fun h => hnone ⟨k, h⟩
  have hunsettled (passes k : Nat) : F.settle rows passes (F.found rows k) = .unsettled := by
    induction passes generalizing k with
    | zero => rfl
    | succ passes ih =>
      rw [settle_of_ne (fits_passAt hF hroom hfirst k) (hne k)]
      exact ih (k + 1)
  obtain ⟨p, hp⟩ := hF.settle rows (fun place => VCode.length_code_mono (placed_found_le hF hroom hfirst 0 place))
    (Nat.zero_le _) hfirst (Nat.le_add_left _ rows.length)
  exact Settlement.noConfusion ((hunsettled _ 0).symm.trans hp)

/-- The first pass that changes nothing is the one that the search ends with, as soon as it may take so many. -/
theorem exists_settle_eq : ∃ k, F.found rows (k + 1) = F.found rows k ∧ ∀ passes,
    F.settle rows passes #[] = if passes ≤ k then .unsettled else .settled (F.passAt rows k) := by
  classical
  have hexists := exists_found_eq hF hroom hfirst
  -- Up to the first pass that changes nothing the search goes on, whatever number of passes is left to it.
  have hrest (passes j : Nat) (hj : j ≤ Nat.find hexists) : F.settle rows passes (F.found rows j) =
      if passes + j ≤ Nat.find hexists then .unsettled else .settled (F.passAt rows (Nat.find hexists)) := by
    induction passes generalizing j with
    | zero =>
      rw [if_pos (by omega)]
      rfl
    | succ passes ih =>
      have hfits := fits_passAt hF hroom hfirst j
      rcases Nat.lt_or_eq_of_le hj with hlt | rfl
      · rw [settle_of_ne hfits (Nat.find_min hexists hlt)]
        have hnext := ih (j + 1) hlt
        rwa [Nat.add_right_comm, Nat.add_assoc]
      · rw [settle_of_eq hfits (Nat.find_spec hexists), if_neg (by omega)]
        rfl
  exact ⟨Nat.find hexists, Nat.find_spec hexists, fun passes => hrest passes 0 (Nat.zero_le _)⟩

end

theorem begins_getElem? {address : Nat → Nat} {i : Nat} (hi : i < rows.length) (place offset : Nat) :
    (F.begins address place offset rows)[i]? = some (offset + (F.bytes address place (rows.take i)).length) := by
  induction rows generalizing i place offset with
  | nil => cases hi
  | cons r rows ih =>
    cases i with
    | zero => rfl
    | succ i =>
      rw [begins, List.getElem?_cons_succ, ih (Nat.lt_of_succ_lt_succ hi), List.take_succ_cons, bytes, List.length_append,
        Nat.add_assoc]

/-- In a pass that finds the offsets that it was given, an address stands for the bytes before its row. -/
theorem placed_eq_length {p : Pass} (h : Laid F rows p) {i : Nat} (hi : i < rows.length) : F.placed p.offsets i =
    (F.opening (F.placed p.offsets) ++ F.bytes (F.placed p.offsets) 0 (rows.take i)).length := by
  rw [placed, ← Array.getElem?_toList, h.offsets_eq, begins_getElem? hi, List.length_append]
  rfl

theorem placed_zero_pass (hne : rows ≠ []) (before : Array Nat) :
    F.placed (F.pass rows before).offsets 0 = (F.opening (F.placed before)).length := by
  obtain ⟨r, rest, rfl⟩ := List.exists_cons_of_ne_nil hne
  have hopening : F.address before #[] = F.placed before := address_eq_placed List.nil_prefix
  have hsize : (F.start before).body.size = (F.opening (F.placed before)).length :=
    congrArg (fun address => (F.opening address).length) hopening
  have hprefix := prefix_foldl (F := F) before rest (F.step before (F.start before) r)
  have hfirst : 0 < (F.step before (F.start before) r).offsets.size := Nat.succ_pos 0
  rw [pass, List.foldl_cons, ← placed_of_prefix hprefix hfirst, step_offsets, hsize]
  rfl

/-- A pass repeats the offsets that it was given if it finds for each row the address that it had. -/
theorem found_eq_iff (hopening : (F.opening (F.placed #[])).length ≠ F.unplaced) (k : Nat) :
    F.found rows (k + 1) = F.found rows k ↔
      ∀ i < rows.length, F.placed (F.found rows (k + 1)) i = F.placed (F.found rows k) i := by
  constructor
  · intro h i _
    rw [h]
  · intro h
    cases k with
    | zero =>
      by_cases hne : rows = []
      · subst hne
        rfl
      · have hsame : F.placed (F.pass rows #[]).offsets 0 = F.placed #[] 0 := h 0 (List.length_pos_iff.2 hne)
        rw [placed_zero_pass hne] at hsame
        exact absurd hsame hopening
    | succ k =>
      refine Array.ext (by rw [found, found, size_pass, size_pass]) fun i hi hi' => ?_
      have hsame := h i (by rwa [found, size_pass] at hi)
      simpa [placed, hi, hi'] using hsame

end RowFormat

/-- The places of an order are those of the reachable states. -/
theorem Graph.Ordered.forall_placeIn {G : Graph} {order : List State} (horder : G.Ordered order) {P : Nat → Prop} :
    (∀ t, G.Reachable t → P (Graph.placeIn order t)) ↔ ∀ i < order.length, P i := by
  constructor
  · intro h i hi
    have hplace := Graph.placeIn_eq horder.nodup (List.getElem?_eq_getElem hi)
    exact hplace ▸ h order[i] ((horder.mem_iff _).1 (List.getElem_mem hi))
  · intro h t ht
    exact h _ (List.getElem?_eq_some_iff.1 (Plan.exists_placeIn horder ht)).1

namespace CompactWriter

theorem bounded_format (table : LabelTable) (numbers : Bool) (root : Option Nat) :
    (format table numbers root).Bounded := by
  refine ⟨fun address place r => ?_⟩
  show decide (address place < 2 ^ 32) = true ↔ address place ≤ 2 ^ 32 - 1
  rw [decide_eq_true_eq]
  omega

theorem length_opening_ne (table : LabelTable) (numbers : Bool) (root : Option Nat) :
    ((format table numbers root).opening ((format table numbers root).placed #[])).length ≠
      (format table numbers root).unplaced := by
  have hunplaced (place : Nat) : (format table numbers root).placed #[] place < 2 ^ 32 := by
    show 2 ^ 32 - 1 < 2 ^ 32
    decide
  have hopening := length_opening_le hunplaced table numbers root
  show (opening table numbers root _).length ≠ 2 ^ 32 - 1
  omega

namespace Subject

/-- The pass over the states in an order that so many others have come before. -/
def passAt (s : Subject) (order : List State) (k : Nat) : Pass := (s.format (s.plan order)).passAt (s.plan order).rows k

/-- The offset of a state behind so many passes. Behind none it is the largest number of 32 bits. -/
def offset (s : Subject) (order : List State) (k : Nat) (t : State) : Nat :=
  (s.format (s.plan order)).placed ((s.format (s.plan order)).found (s.plan order).rows k) (Graph.placeIn order t)

theorem length_rows (s : Subject) (order : List State) : (s.plan order).rows.length = order.length := by
  rw [plan, Graph.plan_eq, List.length_map]

/-- Where a state begins in what a pass has written: behind the state that leads to the root and those placed before it, all
written with some addresses. -/
def position (s : Subject) (order : List State) (address : Nat → Nat) (t : State) : Nat :=
  ((s.format (s.plan order)).opening address ++
    (s.format (s.plan order)).bytes address 0 ((s.plan order).rows.take (Graph.placeIn order t))).length

section

variable (s : Subject) (order : List State)

theorem offset_zero (t : State) : s.offset order 0 t = 2 ^ 32 - 1 := RowFormat.placed_of_size_le (Nat.zero_le _)

theorem offset_le {k : Nat} (hbefore : ∀ j < k, (s.passAt order j).fits = true) {t : State}
    (ht : s.offset order (k + 1) t < 2 ^ 32) : s.offset order (k + 1) t ≤ s.offset order k t := by
  cases k with
  | zero =>
    rw [offset_zero]
    omega
  | succ k =>
    exact RowFormat.placed_found_le (coded_format _ _ _) (bounded_format _ _ _) (hbefore 0 (Nat.succ_pos k)) (k + 1) _

theorem passAt_fits (hfirst : (s.passAt order 0).fits = true) (k : Nat) : (s.passAt order k).fits = true ∧
    (s.passAt order (k + 1)).body.size ≤ (s.passAt order k).body.size := by
  have hcoded := coded_format s.table s.count.isSome (s.plan order).root
  have hbounded := bounded_format s.table s.count.isSome (s.plan order).root
  exact ⟨RowFormat.fits_passAt hcoded hbounded hfirst k, (RowFormat.passAt_ahead hcoded hbounded hfirst k).body_le⟩

/-- However the passes end, there is a number of them that is enough. -/
theorem exists_settle_eq : ∃ k, ∀ passes, (s.format (s.plan order)).settle (s.plan order).rows passes #[] =
    if passes ≤ k then .unsettled
    else if (s.passAt order 0).fits then .settled (s.passAt order k) else .tooNarrow (s.passAt order 0).offsets := by
  by_cases hfirst : (s.passAt order 0).fits = true
  · obtain ⟨k, -, hsettle⟩ := RowFormat.exists_settle_eq (coded_format _ _ _) (bounded_format _ _ _) hfirst
    refine ⟨k, fun passes => ?_⟩
    rw [if_pos hfirst]
    exact hsettle passes
  · refine ⟨0, fun passes => ?_⟩
    rw [if_neg hfirst]
    cases passes with
    | zero => rfl
    | succ passes =>
      rw [if_neg (Nat.not_succ_le_zero passes)]
      exact RowFormat.settle_of_narrow (Bool.eq_false_iff.2 hfirst) passes

end

section

variable (s : Subject) {order : List State} (horder : s.graph.Ordered order)

include horder

/-- A pass has room for everything if and only if it finds offsets of 32 bits for all that it writes. -/
theorem fits_passAt_iff (k : Nat) : (s.passAt order k).fits = true ↔
    ∀ t, s.graph.Reachable t → s.offset order (k + 1) t < 2 ^ 32 := by
  have hlength := s.length_rows order
  have hunplaced : (s.format (s.plan order)).unplaced = 2 ^ 32 - 1 := rfl
  have hbounded : (s.format (s.plan order)).Bounded := bounded_format _ _ _
  have hplaces := horder.forall_placeIn (P := fun i =>
    (s.format (s.plan order)).placed ((s.format (s.plan order)).found (s.plan order).rows (k + 1)) i < 2 ^ 32)
  refine (hbounded.fits_pass_iff _ _).trans (Iff.trans ⟨?_, ?_⟩ hplaces.symm)
  · intro h i _
    have hle := h i
    rw [RowFormat.found]
    omega
  · intro h i
    by_cases hi : i < order.length
    · have hlt := h i hi
      rw [RowFormat.found] at hlt
      omega
    · rw [RowFormat.placed_of_size_le (by rw [RowFormat.size_pass]; omega)]

theorem found_eq_of_offset_eq {k : Nat} (h : ∀ t, s.graph.Reachable t → s.offset order (k + 1) t = s.offset order k t) :
    (s.format (s.plan order)).found (s.plan order).rows (k + 1) = (s.format (s.plan order)).found (s.plan order).rows k := by
  refine (RowFormat.found_eq_iff (length_opening_ne _ _ _) k).2 ?_
  rw [length_rows]
  exact horder.forall_placeIn.1 h

end

/-- Whatever states are moved to the front, every reachable state is written once. As long as the passes find room, no offset
grows from one to the next, at first from the largest number of 32 bits, and neither does the body; all passes find room if the
first one does. So the passes come to an end, however many may be needed; and in the last one, which changes nothing, every
address that is given out, and written, is the number of bytes before its state. -/
theorem passes_shrink (s : Subject) {moved : List State} (hmoved : ∀ t ∈ moved, s.graph.Reachable t) :
    let order := s.graph.linearize moved
    let F := s.format (s.plan order)
    let rows := (s.plan order).rows
    s.graph.Ordered order ∧
    (∀ t, s.offset order 0 t = 2 ^ 32 - 1) ∧
    (∀ k, (s.passAt order k).fits = true ↔ ∀ t, s.graph.Reachable t → s.offset order (k + 1) t < 2 ^ 32) ∧
    (∀ k, (∀ j < k, (s.passAt order j).fits = true) → ∀ t, s.graph.Reachable t →
      s.offset order (k + 1) t < 2 ^ 32 → s.offset order (k + 1) t ≤ s.offset order k t) ∧
    (∀ k, (s.passAt order 0).fits = true → (s.passAt order k).fits = true ∧
      (s.passAt order (k + 1)).body.size ≤ (s.passAt order k).body.size) ∧
    (∃ k, ∀ passes, F.settle rows passes #[] = if passes ≤ k then .unsettled
      else if (s.passAt order 0).fits then .settled (s.passAt order k) else .tooNarrow (s.passAt order 0).offsets) ∧
    ∀ k, (s.passAt order k).fits = true →
      (∀ t, s.graph.Reachable t → s.offset order (k + 1) t = s.offset order k t) →
      ∃ address, (∀ t, s.graph.Reachable t → address (Graph.placeIn order t) = s.offset order (k + 1) t) ∧
        (∀ written place, F.address (F.found rows k) ((s.passAt order k).offsets.extract 0 written) place = address place) ∧
        (s.passAt order k).body.toList = F.opening address ++ F.bytes address 0 rows ∧
        ∀ t, s.graph.Reachable t → s.offset order (k + 1) t = s.position order address t := by
  intro order F rows
  have horder : s.graph.Ordered order := Graph.linearize_ordered hmoved
  refine ⟨horder, s.offset_zero order, s.fits_passAt_iff horder, fun k hbefore t _ => s.offset_le order hbefore,
    fun k hfirst => s.passAt_fits order hfirst k, s.exists_settle_eq order, ?_⟩
  intro k hfits hsame
  have hoffsets : (s.passAt order k).offsets = F.found rows k := s.found_eq_of_offset_eq horder hsame
  have hlaid : Laid F rows (s.passAt order k) := by
    apply RowFormat.laid_of_pass _ hfits
    rw [hoffsets]
    rfl
  refine ⟨F.placed (s.passAt order k).offsets, fun t _ => rfl, ?_, hlaid.body_eq, ?_⟩
  · -- An address that is found in this pass and one that is left from the pass before are the same here.
    intro written place
    have hprefix : ((s.passAt order k).offsets.extract 0 written).toList <+: (F.found rows k).toList := by
      rw [hoffsets, Array.toList_extract, List.extract_eq_take_drop, Nat.sub_zero, List.drop_zero]
      exact List.take_prefix _ _
    rw [RowFormat.address_eq_placed hprefix, hoffsets]
  · intro t ht
    have hplace : Graph.placeIn order t < rows.length :=
      s.length_rows order ▸ (List.getElem?_eq_some_iff.1 (Plan.exists_placeIn horder ht)).1
    exact RowFormat.placed_eq_length hlaid hplace

theorem passes_shrink_shared : ∃ b states order address, Builder.build [[97, 99], [98, 99]] = .ok b ∧
    b.automaton.survey = .ok states ∧ order = b.automaton.graph.linearize (candidates b.automaton.graph states 1) ∧
    let s : Subject := ⟨b.automaton.graph, .ofLabels (b.automaton.graph.labels states), none⟩
    s.graph.Ordered order ∧ s.offset order 1 ⟨12⟩ = 9 ∧ s.offset order 2 ⟨12⟩ = 5 ∧
    (s.passAt order 2).body.size ≤ (s.passAt order 1).body.size ∧
    (∀ t, s.graph.Reachable t → s.offset order 3 t = s.position order address t) ∧
    s.position order address ⟨12⟩ = 5 := by
  have hrun : (do
      let b ← (Builder.build [[97, 99], [98, 99]]).toOption
      let states ← b.automaton.survey.toOption
      let s : Subject := ⟨b.automaton.graph, .ofLabels (b.automaton.graph.labels states), none⟩
      let order := s.graph.linearize (candidates s.graph states 1)
      return (order, (s.offset order 2 ⟨6⟩, s.offset order 3 ⟨6⟩),
        (s.offset order 1 ⟨12⟩, s.offset order 2 ⟨12⟩, s.offset order 3 ⟨12⟩), (s.passAt order 0).fits)) =
      some ([⟨6⟩, ⟨12⟩], (3, 3), (9, 5, 5), true) := by cbv
  simp only [Option.bind_eq_bind, Option.bind_eq_some_iff, toOption_eq_some, Option.pure_def, Option.some.injEq,
    Prod.mk.injEq] at hrun
  obtain ⟨b, hb, states, hstates, horder, ⟨hroot, hroot'⟩, ⟨hlast, hlast', hlast''⟩, hfits⟩ := hrun
  have hread := Automaton.readable_of_survey hstates
  obtain ⟨states', hstates', hsurveyed⟩ := hread.survey
  obtain rfl := Except.ok.inj (hstates.symm.trans hstates')
  obtain ⟨hordered, -, -, -, hroom, -, hsettled⟩ :=
    passes_shrink ⟨b.automaton.graph, .ofLabels (b.automaton.graph.labels states), none⟩
      fun t ht => (hsurveyed.mem_iff t).1 (mem_of_mem_candidates ht)
  obtain ⟨address, -, -, -, hposition⟩ := hsettled 2 (hroom 2 hfits).1 fun t ht => by
    have hmem : t ∈ [⟨6⟩, ⟨12⟩] := horder ▸ (hordered.mem_iff t).2 ht
    rcases List.mem_pair.1 hmem with rfl | rfl
    · exact hroot'.trans hroot.symm
    · exact hlast''.trans hlast'.symm
  have hreached := (hordered.mem_iff ⟨12⟩).1 (horder ▸ List.mem_cons_of_mem _ List.mem_cons_self)
  exact ⟨b, states, _, address, hb, hstates, rfl, hordered, hlast, hlast', (hroom 1 hfits).2, hposition,
    (hposition _ hreached).symm.trans hlast''⟩

end Subject

end CompactWriter

end WordAutomata
