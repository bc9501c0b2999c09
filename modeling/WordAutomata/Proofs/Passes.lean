import WordAutomata.Proofs.Reading
import WordAutomata.Write.Layout

namespace WordAutomata

namespace RowFormat

variable {F : RowFormat}

/-- Rows from a place on, one behind the other. -/
def bytes (F : RowFormat) (address : Nat → Nat) : Nat → List PlacedRow → List UInt8
  | _, [] => []
  | place, r :: rows => F.row address place r ++ F.bytes address (place + 1) rows

/-- Where these rows begin, the first of them at `offset`. -/
def begins (F : RowFormat) (address : Nat → Nat) : (place offset : Nat) → List PlacedRow → List Nat
  | _, _, [] => []
  | place, offset, r :: rows =>
    offset :: F.begins address (place + 1) (offset + (F.row address place r).length) rows

/-- The address of a place, all offsets being known. -/
def placed (F : RowFormat) (offsets : Array Nat) (place : Nat) : Nat := offsets[place]?.getD F.unplaced

theorem placed_push (found : Array Nat) (offset place : Nat) :
    F.placed (found.push offset) place = if place = found.size then offset else F.placed found place := by
  rw [placed, placed, Array.getElem?_push]
  by_cases h : place = found.size <;> simp [h]

theorem placed_of_size_le {found : Array Nat} {place : Nat} (h : found.size ≤ place) :
    F.placed found place = F.unplaced := by
  rw [placed, Array.getElem?_eq_none h]
  rfl

theorem address_eq (before found : Array Nat) (place : Nat) :
    F.address before found place = if place < found.size then F.placed found place else F.placed before place := by
  rw [address, placed, placed]
  by_cases h : place < found.size
  · simp [h]
  · simp [h]

theorem placed_of_prefix {found offsets : Array Nat} (h : found.toList <+: offsets.toList) {place : Nat}
    (hplace : place < found.size) : F.placed found place = F.placed offsets place := by
  obtain ⟨rest, hrest⟩ := h
  rw [placed, placed, ← Array.getElem?_toList, ← Array.getElem?_toList, ← hrest, List.getElem?_append_left hplace]

/-- Offsets found so far do no harm if they are those of the pass before. -/
theorem address_eq_placed {before found : Array Nat} (h : found.toList <+: before.toList) :
    F.address before found = F.placed before := by
  funext place
  rw [address_eq]
  split
  · exact placed_of_prefix h ‹_›
  · rfl

theorem step_offsets (before : Array Nat) (p : Pass) (r : PlacedRow) :
    (F.step before p r).offsets = p.offsets.push p.body.size := by
  rw [← p.size_eq]
  rfl

theorem step_body (before : Array Nat) (p : Pass) (r : PlacedRow) : (F.step before p r).body =
    p.body ++ F.row (F.address before (p.offsets.push p.body.size)) p.offsets.size r := by
  rw [← p.size_eq]
  rfl

theorem step_fits (before : Array Nat) (p : Pass) (r : PlacedRow) : (F.step before p r).fits =
    (p.fits && F.fits (F.address before (p.offsets.push p.body.size)) p.offsets.size r) := by
  rw [← p.size_eq]
  rfl

theorem size_step (before : Array Nat) (p : Pass) (r : PlacedRow) : (F.step before p r).body.size =
    p.body.size + (F.row (F.address before (p.offsets.push p.body.size)) p.offsets.size r).length := by
  rw [step_body, size_append]

theorem prefix_foldl (before : Array Nat) (rows : List PlacedRow) (p : Pass) :
    p.offsets.toList <+: (rows.foldl (F.step before) p).offsets.toList := by
  induction rows generalizing p with
  | nil => exact List.prefix_refl _
  | cons r rows ih =>
    have hfirst : p.offsets.toList <+: (F.step before p r).offsets.toList := by
      rw [step_offsets, Array.toList_push]
      exact List.prefix_append _ _
    exact hfirst.trans (ih (F.step before p r))

theorem size_pass (rows : List PlacedRow) (before : Array Nat) : (F.pass rows before).offsets.size = rows.length := by
  have hfold (p : Pass) : (rows.foldl (F.step before) p).offsets.size = p.offsets.size + rows.length := by
    induction rows generalizing p with
    | nil => rfl
    | cons r rows ih =>
      rw [List.foldl_cons, ih, step_offsets, Array.size_push, List.length_cons]
      omega
  rw [pass, hfold]
  exact Nat.zero_add _

/-- What rows come to, if their offsets are those of the pass before. -/
theorem foldl_step {before : Array Nat} (rows : List PlacedRow) (p : Pass)
    (h : (rows.foldl (F.step before) p).offsets = before) :
    (rows.foldl (F.step before) p).body.toList = p.body.toList ++ F.bytes (F.placed before) p.offsets.size rows ∧
    before.toList = p.offsets.toList ++ F.begins (F.placed before) p.offsets.size p.body.size rows ∧
    ((rows.foldl (F.step before) p).fits = true → p.fits = true ∧
      ∀ i r, rows[i]? = some r → F.fits (F.placed before) (p.offsets.size + i) r = true) := by
  induction rows generalizing p with
  | nil =>
    simp only [List.foldl_nil] at h
    simp [bytes, begins, ← h]
  | cons r rows ih =>
    -- What has been found when the row is written is where the offsets of the pass before begin.
    have haddress : F.address before (p.offsets.push p.body.size) = F.placed before := by
      apply address_eq_placed
      have hprefix := prefix_foldl (F := F) before rows (F.step before p r)
      rw [List.foldl_cons] at h
      rwa [h, step_offsets] at hprefix
    obtain ⟨hbody, hoffsets, hfits⟩ := ih (F.step before p r) h
    rw [step_offsets, Array.size_push] at hbody hoffsets hfits
    rw [step_body, haddress] at hbody
    rw [size_step, haddress] at hoffsets
    rw [step_fits, haddress] at hfits
    rw [List.foldl_cons]
    refine ⟨?_, ?_, ?_⟩
    · rw [hbody]
      simp [bytes]
    · rw [hoffsets]
      simp [begins]
    · intro hall
      obtain ⟨hsofar, hrest⟩ := hfits hall
      rw [Bool.and_eq_true] at hsofar
      refine ⟨hsofar.1, ?_⟩
      intro i r' hr'
      cases i with
      | zero =>
        obtain rfl : r = r' := by simpa using hr'
        exact hsofar.2
      | succ i =>
        have := hrest i r' (by simpa using hr')
        rwa [show p.offsets.size + (i + 1) = p.offsets.size + 1 + i from by omega]

end RowFormat

/-- The rows as they are written once the offsets are right. -/
structure Laid (F : RowFormat) (rows : List PlacedRow) (p : Pass) : Prop where
  body_eq : p.body.toList = F.opening (F.placed p.offsets) ++ F.bytes (F.placed p.offsets) 0 rows
  offsets_eq : p.offsets.toList =
    F.begins (F.placed p.offsets) 0 (F.opening (F.placed p.offsets)).length rows
  fits : ∀ i r, rows[i]? = some r → F.fits (F.placed p.offsets) i r = true

namespace RowFormat

variable {F : RowFormat} {rows : List PlacedRow} {p : Pass}

theorem laid_of_pass (h : F.pass rows p.offsets = p) (hfits : p.fits = true) : Laid F rows p := by
  have hopening : F.address p.offsets #[] = F.placed p.offsets := address_eq_placed List.nil_prefix
  have hstart : (F.start p.offsets).body = (F.opening (F.placed p.offsets)).toArray :=
    congrArg (fun address => (F.opening address).toArray) hopening
  have hempty : (F.start p.offsets).offsets = #[] := rfl
  have hfold := foldl_step rows (F.start p.offsets) (congrArg Pass.offsets h)
  rw [← pass, h, hstart, hempty] at hfold
  obtain ⟨hbody, hoffsets, hall⟩ := hfold
  refine ⟨by simpa using hbody, by simpa using hoffsets, ?_⟩
  intro i r hr
  simpa using (hall hfits).2 i r hr

/-- A search ends with a pass that repeats itself and has room for everything. -/
theorem pass_of_settle {passes : Nat} {before : Array Nat} (h : F.settle rows passes before = .settled p) :
    F.pass rows p.offsets = p ∧ p.fits = true := by
  induction passes generalizing before with
  | zero => cases h
  | succ passes ih =>
    rw [settle] at h
    split at h
    · cases h
    · rename_i hfits
      split at h
      · rename_i hsame
        obtain rfl : F.pass rows before = p := by simpa using h
        rw [hsame]
        exact ⟨rfl, by simpa using hfits⟩
      · exact ih h

/-- Nothing becomes longer or shorter by the addresses it holds. -/
structure Steady (F : RowFormat) : Prop where
  opening : ∀ address address', (F.opening address).length = (F.opening address').length
  row : ∀ address address' place r, (F.row address place r).length = (F.row address' place r).length

theorem Steady.foldl_step (h : F.Steady) (before before' : Array Nat) (rows : List PlacedRow) {p p' : Pass}
    (hoffsets : p.offsets = p'.offsets) (hsize : p.body.size = p'.body.size) :
    (rows.foldl (F.step before) p).offsets = (rows.foldl (F.step before') p').offsets := by
  -- The addresses of the two passes may differ, what they take does not.
  induction rows generalizing p p' with
  | nil => exact hoffsets
  | cons r rows ih =>
    apply ih
    · rw [step_offsets, step_offsets, hoffsets, hsize]
    · have hrow := h.row (F.address before (p.offsets.push p.body.size)) (F.address before' (p'.offsets.push p'.body.size))
        p.offsets.size r
      rw [size_step, size_step, hrow, hoffsets, hsize]

theorem Steady.pass_offsets (h : F.Steady) (rows : List PlacedRow) (before before' : Array Nat) :
    (F.pass rows before).offsets = (F.pass rows before').offsets := by
  refine h.foldl_step before before' rows rfl ?_
  simp only [start, List.size_toArray]
  exact h.opening _ _

/-- If nothing depends on the addresses, the second pass repeats the first. -/
theorem Steady.settle_cases (h : F.Steady) (rows : List PlacedRow) (passes : Nat) (before : Array Nat) :
    (∃ p, F.settle rows (passes + 2) before = .settled p) ∨
    ∃ offsets, F.settle rows (passes + 2) before = .tooNarrow offsets ∧ ∃ b, (F.pass rows b).fits = false := by
  rw [settle]
  split
  · rename_i hfits
    exact .inr ⟨_, rfl, before, by simpa using hfits⟩
  · split
    · exact .inl ⟨_, rfl⟩
    · rw [settle]
      split
      · rename_i hfits
        exact .inr ⟨_, rfl, _, by simpa using hfits⟩
      · rw [if_pos (h.pass_offsets rows _ _)]
        exact .inl ⟨_, rfl⟩

theorem fits_pass (h : ∀ address place r, F.fits address place r = true) (rows : List PlacedRow) (before : Array Nat) :
    (F.pass rows before).fits = true := by
  have hfold (p : Pass) (hp : p.fits = true) : (rows.foldl (F.step before) p).fits = true := by
    induction rows generalizing p with
    | nil => exact hp
    | cons r rows ih =>
      apply ih (F.step before p r)
      rw [step_fits, hp, h]
      rfl
  exact hfold _ rfl

theorem moved?_self (p : Pass) : p.moved? p.offsets = none := by
  rw [Pass.moved?, Option.map_eq_none_iff, Array.find?_eq_none]
  intro ⟨⟨written, expected⟩, place⟩ hmem
  rw [Array.mem_zipIdx_iff_getElem?, Array.getElem?_zip_eq_some] at hmem
  have hsame : some written = some expected := hmem.1.symm.trans hmem.2
  simpa using hsame

/-- Where a row stands. -/
theorem bytes_split {address : Nat → Nat} {i : Nat} {r : PlacedRow} (hr : rows[i]? = some r) (place offset : Nat) :
    ∃ before after, F.bytes address place rows = before ++ (F.row address (place + i) r ++ after) ∧
      (F.begins address place offset rows)[i]? = some (offset + before.length) ∧
      (i + 1 < rows.length → (F.begins address place offset rows)[i + 1]? =
        some (offset + before.length + (F.row address (place + i) r).length)) := by
  induction rows generalizing i place offset with
  | nil => simp at hr
  | cons r' rows ih =>
    cases i with
    | zero =>
      obtain rfl : r' = r := by simpa using hr
      refine ⟨[], F.bytes address (place + 1) rows, rfl, rfl, ?_⟩
      intro hlt
      cases rows with
      | nil => simp at hlt
      | cons => simp [begins]
    | succ i =>
      obtain ⟨before, after, hbytes, hbegins, hnext⟩ :=
        ih (by simpa using hr) (place + 1) (offset + (F.row address place r').length)
      have hplace : place + 1 + i = place + (i + 1) := by omega
      rw [hplace] at hbytes hnext
      refine ⟨F.row address place r' ++ before, after, by rw [bytes, hbytes, List.append_assoc], ?_, ?_⟩
      · rw [begins, List.getElem?_cons_succ, hbegins, List.length_append]
        congr 1
        omega
      · intro hlt
        rw [begins, List.getElem?_cons_succ, hnext (by simpa using hlt), List.length_append]
        congr 1
        omega

end RowFormat

/-- A row where it was written among so many: what comes before its arcs, and the arcs. -/
structure Stands (body : Bytes) (rows : Nat) (address : Nat → Nat) (place : Nat) (head arcs : List UInt8) : Prop where
  holds_head : body.Holds (address place) head
  holds_arcs : body.Holds (address place + head.length) arcs
  pos : 0 < address place
  le_size : address place + head.length + arcs.length ≤ body.size
  next : place + 1 < rows → address (place + 1) = address place + head.length + arcs.length

namespace Laid

variable {F : RowFormat} {rows : List PlacedRow} {p : Pass} (h : Laid F rows p)

include h

theorem holds_opening : p.body.Holds 0 (F.opening (F.placed p.offsets)) :=
  ⟨F.bytes (F.placed p.offsets) 0 rows, h.body_eq.symm⟩

/-- A row stands at the address of its place, behind the opening and right before the next one. -/
theorem row_cases {i : Nat} {r : PlacedRow} (hr : rows[i]? = some r) :
    p.body.Holds (F.placed p.offsets i) (F.row (F.placed p.offsets) i r) ∧
    (F.opening (F.placed p.offsets)).length ≤ F.placed p.offsets i ∧
    (i + 1 < rows.length →
      F.placed p.offsets (i + 1) = F.placed p.offsets i + (F.row (F.placed p.offsets) i r).length) := by
  have hlookup (j offset : Nat)
      (hj : (F.begins (F.placed p.offsets) 0 (F.opening (F.placed p.offsets)).length rows)[j]? = some offset) :
      F.placed p.offsets j = offset := by
    rw [RowFormat.placed, ← Array.getElem?_toList, h.offsets_eq, hj]
    rfl
  obtain ⟨before, after, hbytes, hbegins, hnext⟩ :=
    RowFormat.bytes_split hr 0 (F.opening (F.placed p.offsets)).length
  rw [Nat.zero_add] at hbytes hnext
  have hplaced := hlookup i _ hbegins
  refine ⟨?_, by omega, ?_⟩
  · rw [hplaced, ← List.length_append]
    apply Bytes.holds_of_append
    rw [h.body_eq, hbytes, List.append_assoc]
  · intro hlt
    rw [hplaced]
    exact hlookup (i + 1) _ (hnext hlt)

theorem stands {i : Nat} {r : PlacedRow} (hr : rows[i]? = some r) {head arcs : List UInt8}
    (hrow : F.row (F.placed p.offsets) i r = head ++ arcs) (harcs : arcs ≠ [])
    (hopening : F.opening (F.placed p.offsets) ≠ []) : Stands p.body rows.length (F.placed p.offsets) i head arcs := by
  obtain ⟨hholds, hbehind, hnext⟩ := h.row_cases hr
  rw [hrow] at hholds hnext
  obtain ⟨hfirst, hrest⟩ := Bytes.holds_append.1 hholds
  have hpos := List.length_pos_iff.2 hopening
  refine ⟨hfirst, hrest, by omega, hrest.le_size harcs, ?_⟩
  intro hlt
  rw [hnext hlt, List.length_append, Nat.add_assoc]

theorem placed_zero (hne : rows ≠ []) : F.placed p.offsets 0 = (F.opening (F.placed p.offsets)).length := by
  rw [RowFormat.placed, ← Array.getElem?_toList, h.offsets_eq]
  cases rows with
  | nil => exact absurd rfl hne
  | cons => rfl

/-- Rows that are not empty stand at different addresses. -/
theorem placed_lt (hne : ∀ i r, rows[i]? = some r → F.row (F.placed p.offsets) i r ≠ []) {i j : Nat} (hij : i < j)
    (hj : j < rows.length) : F.placed p.offsets i < F.placed p.offsets j := by
  induction j with
  | zero => omega
  | succ j ih =>
    have hr : rows[j]? = some rows[j] := List.getElem?_eq_getElem (by omega)
    have hpos := List.length_pos_iff.2 (hne j _ hr)
    have hnext := (h.row_cases hr).2.2 hj
    by_cases heq : i = j
    · rw [heq]
      omega
    · have := ih (by omega) (by omega)
      omega

theorem injective (hne : ∀ i r, rows[i]? = some r → F.row (F.placed p.offsets) i r ≠ [])
    (hlt : ∀ i, i < rows.length → F.placed p.offsets i < 2 ^ 32) (i j : Nat) (hi : i < rows.length)
    (hj : j < rows.length) (heq : UInt32.ofNat (F.placed p.offsets i) = UInt32.ofNat (F.placed p.offsets j)) :
    i = j := by
  have hsame : F.placed p.offsets i = F.placed p.offsets j := by
    rw [← UInt32.toNat_ofNat_of_lt' (hlt i hi), heq, UInt32.toNat_ofNat_of_lt' (hlt j hj)]
  rcases Nat.lt_trichotomy i j with hij | hij | hij
  · have := h.placed_lt hne hij hj
    omega
  · exact hij
  · have := h.placed_lt hne hij hi
    omega

end Laid

end WordAutomata
