import WordAutomata.Proofs.CompactWriter

namespace WordAutomata

namespace VCode

theorem length_code (n : Nat) : (code n).length = if n < 128 then 1 else (code (n / 128)).length + 1 := by
  rw [code]
  split <;> rfl

theorem length_code_pos (n : Nat) : 0 < (code n).length := List.length_pos_iff.2 (code_ne_nil n)

theorem length_code_mono {m n : Nat} (h : m ≤ n) : (code m).length ≤ (code n).length := by
  induction n using Nat.strong_induction_on generalizing m with
  | _ n ih =>
    by_cases hm : m < 128
    · have hpos := length_code_pos n
      rw [length_code, if_pos hm]
      omega
    · have hn : ¬n < 128 := by omega
      have hrest := ih (n / 128) (by omega) (Nat.div_le_div_right h)
      rw [length_code, length_code n, if_neg hm, if_neg hn]
      omega

end VCode

/-- No address has a longer code than another one for the same place. -/
def CodesLe (address address' : Nat → Nat) : Prop :=
  ∀ place, (VCode.code (address place)).length ≤ (VCode.code (address' place)).length

namespace RowFormat

/-- Rows hold codes of addresses, and have room as long as their own addresses do not grow. -/
structure Coded (F : RowFormat) : Prop where
  opening : ∀ {address address' : Nat → Nat}, CodesLe address address' →
    (F.opening address).length ≤ (F.opening address').length
  row : ∀ {address address' : Nat → Nat}, CodesLe address address' → ∀ place r,
    (F.row address place r).length ≤ (F.row address' place r).length
  fits : ∀ {address address' : Nat → Nat} {place : Nat}, address place ≤ address' place → ∀ r,
    F.fits address' place r = true → F.fits address place r = true

variable {F : RowFormat}

/-- Of two passes as far as they have come, the one is nowhere behind the other. -/
structure Ahead (F : RowFormat) (p p' : Pass) : Prop where
  size_eq : p.offsets.size = p'.offsets.size
  placed_le : ∀ place, F.placed p.offsets place ≤ F.placed p'.offsets place
  body_le : p.body.size ≤ p'.body.size
  fits : p'.fits = true → p.fits = true

theorem Ahead.step (hF : F.Coded) {before before' : Array Nat} (hbefore : CodesLe (F.placed before) (F.placed before'))
    {p p' : Pass} (h : F.Ahead p p') (r : PlacedRow) : F.Ahead (F.step before p r) (F.step before' p' r) := by
  have hplaced (place : Nat) :
      F.placed (p.offsets.push p.body.size) place ≤ F.placed (p'.offsets.push p'.body.size) place := by
    rw [placed_push, placed_push, h.size_eq]
    by_cases hlast : place = p'.offsets.size
    · simpa [hlast] using h.body_le
    · simpa [hlast] using h.placed_le place
  have hcodes : CodesLe (F.address before (p.offsets.push p.body.size))
      (F.address before' (p'.offsets.push p'.body.size)) := by
    intro place
    rw [address_eq, address_eq, Array.size_push, Array.size_push, h.size_eq]
    by_cases hfound : place < p'.offsets.size + 1
    · rw [if_pos hfound, if_pos hfound]
      exact VCode.length_code_mono (hplaced place)
    · rw [if_neg hfound, if_neg hfound]
      exact hbefore place
  have hown : F.address before (p.offsets.push p.body.size) p.offsets.size ≤
      F.address before' (p'.offsets.push p'.body.size) p.offsets.size := by
    rw [address_eq, address_eq, Array.size_push, Array.size_push, h.size_eq, if_pos (by omega), if_pos (by omega)]
    exact hplaced _
  have hrow := hF.row hcodes p.offsets.size r
  refine ⟨?_, ?_, ?_, ?_⟩
  · simp [step_offsets, h.size_eq]
  · simpa only [step_offsets] using hplaced
  · rw [size_step, size_step, ← h.size_eq]
    have hbody := h.body_le
    omega
  · intro hfits
    rw [step_fits] at hfits ⊢
    obtain ⟨hsofar, hhere⟩ := Bool.and_eq_true_iff.1 hfits
    refine Bool.and_eq_true_iff.2 ⟨h.fits hsofar, ?_⟩
    rw [← h.size_eq] at hhere
    exact hF.fits hown r hhere

theorem Ahead.pass (hF : F.Coded) {before before' : Array Nat} (hbefore : CodesLe (F.placed before) (F.placed before'))
    (rows : List PlacedRow) : F.Ahead (F.pass rows before) (F.pass rows before') := by
  have hfold {p p' : Pass} (h : F.Ahead p p') :
      F.Ahead (rows.foldl (F.step before) p) (rows.foldl (F.step before') p') := by
    induction rows generalizing p p' with
    | nil => exact h
    | cons r rows ih => exact ih (h.step hF hbefore r)
  have hnone (offsets : Array Nat) : F.address offsets #[] = F.placed offsets := by
    funext place
    simp [address_eq]
  apply hfold
  refine ⟨rfl, fun _ => Nat.le_refl _, ?_, fun _ => rfl⟩
  simp only [start, hnone, List.size_toArray]
  exact hF.opening hbefore

/-- Passes from offsets with codes of the same lengths find the same offsets. -/
theorem Coded.pass_eq (hF : F.Coded) {before before' : Array Nat} (h : CodesLe (F.placed before) (F.placed before'))
    (h' : CodesLe (F.placed before') (F.placed before)) (rows : List PlacedRow) :
    (F.pass rows before).offsets = (F.pass rows before').offsets := by
  have hle := (Ahead.pass hF h rows).placed_le
  have hge := (Ahead.pass hF h' rows).placed_le
  refine Array.ext (by rw [size_pass, size_pass]) fun i hi hi' => ?_
  have hsame : F.placed (F.pass rows before).offsets i = F.placed (F.pass rows before').offsets i :=
    Nat.le_antisymm (hle i) (hge i)
  simpa [placed, hi, hi'] using hsame

/-- The length of the codes of the addresses of so many rows. -/
def weight (F : RowFormat) : (rows : Nat) → (offsets : Array Nat) → Nat
  | 0, _ => 0
  | place + 1, offsets => F.weight place offsets + (VCode.code (F.placed offsets place)).length

theorem weight_le (rows : Nat) {offsets offsets' : Array Nat} (h : CodesLe (F.placed offsets) (F.placed offsets')) :
    F.weight rows offsets ≤ F.weight rows offsets' := by
  induction rows with
  | zero => exact Nat.le_refl 0
  | succ place ih => exact Nat.add_le_add ih (h place)

theorem le_weight (rows : Nat) (offsets : Array Nat) : rows ≤ F.weight rows offsets := by
  induction rows with
  | zero => exact Nat.le_refl 0
  | succ place ih => exact Nat.add_le_add ih (VCode.length_code_pos (F.placed offsets place))

/-- If the codes take as many bytes as before, none has become shorter. -/
theorem codesLe_of_weight_eq {rows : Nat} {offsets offsets' : Array Nat}
    (h : CodesLe (F.placed offsets) (F.placed offsets')) (hweight : F.weight rows offsets = F.weight rows offsets')
    (hsize : offsets.size ≤ rows) (hsize' : offsets'.size ≤ rows) : CodesLe (F.placed offsets') (F.placed offsets) := by
  have hall (n : Nat) (hn : F.weight n offsets = F.weight n offsets') (place : Nat) (hplace : place < n) :
      (VCode.code (F.placed offsets' place)).length ≤ (VCode.code (F.placed offsets place)).length := by
    induction n with
    | zero => omega
    | succ n ih =>
      have hbefore := weight_le n h
      have hlast := h n
      simp only [weight] at hn
      by_cases hsame : place = n
      · rw [hsame]
        omega
      · exact ih (by omega) (by omega)
  intro place
  by_cases hplace : place < rows
  · exact hall rows hweight place hplace
  · rw [placed_of_size_le (by omega), placed_of_size_le (by omega)]

theorem settle_of_eq {rows : List PlacedRow} {before : Array Nat} (hfits : (F.pass rows before).fits = true)
    (hsame : (F.pass rows before).offsets = before) (passes : Nat) :
    F.settle rows (passes + 1) before = .settled (F.pass rows before) := by
  simp [RowFormat.settle, hfits, hsame]

theorem settle_of_ne {rows : List PlacedRow} {before : Array Nat} (hfits : (F.pass rows before).fits = true)
    (hsame : (F.pass rows before).offsets ≠ before) (passes : Nat) :
    F.settle rows (passes + 1) before = F.settle rows passes (F.pass rows before).offsets := by
  rw [RowFormat.settle, hfits, if_neg hsame]
  rfl

/-- What a pass finds is repeated by the next one if no code has become shorter. -/
theorem Coded.settle_of_weight_eq (hF : F.Coded) (rows : List PlacedRow) {before : Array Nat}
    (hshrinks : CodesLe (F.placed (F.pass rows before).offsets) (F.placed before)) (hsize : before.size ≤ rows.length)
    (hfits : (F.pass rows before).fits = true)
    (hweight : F.weight rows.length (F.pass rows before).offsets = F.weight rows.length before) (k : Nat) :
    ∃ p, F.settle rows (k + 1) (F.pass rows before).offsets = .settled p := by
  have hkeeps := codesLe_of_weight_eq hshrinks hweight (size_pass rows before).le hsize
  have hsame := hF.pass_eq hshrinks hkeeps rows
  have hfits' := (Ahead.pass hF hshrinks rows).fits hfits
  exact ⟨_, settle_of_eq hfits' hsame k⟩

/-- As long as passes differ, the codes lose a byte with each of them. -/
theorem Coded.settle (hF : F.Coded) (rows : List PlacedRow) {before : Array Nat} {k : Nat}
    (hshrinks : CodesLe (F.placed (F.pass rows before).offsets) (F.placed before)) (hsize : before.size ≤ rows.length)
    (hfits : (F.pass rows before).fits = true) (hweight : F.weight rows.length before ≤ rows.length + k) :
    ∃ p, F.settle rows (k + 2) before = .settled p := by
  -- The induction is on the bytes that the codes can still lose. A pass that loses none is repeated by the next one.
  induction k generalizing before with
  | zero =>
    have hle := weight_le rows.length hshrinks
    have hlow := le_weight (F := F) rows.length (F.pass rows before).offsets
    by_cases hsame : (F.pass rows before).offsets = before
    · exact ⟨_, settle_of_eq hfits hsame 1⟩
    · rw [settle_of_ne hfits hsame]
      exact hF.settle_of_weight_eq rows hshrinks hsize hfits (by omega) 0
  | succ k ih =>
    have hle := weight_le rows.length hshrinks
    by_cases hsame : (F.pass rows before).offsets = before
    · exact ⟨_, settle_of_eq hfits hsame (k + 2)⟩
    · rw [settle_of_ne hfits hsame]
      by_cases hkept : F.weight rows.length (F.pass rows before).offsets = F.weight rows.length before
      · exact hF.settle_of_weight_eq rows hshrinks hsize hfits hkept (k + 1)
      · have hahead := Ahead.pass hF hshrinks rows
        have hnext : CodesLe (F.placed (F.pass rows (F.pass rows before).offsets).offsets)
            (F.placed (F.pass rows before).offsets) := fun place => VCode.length_code_mono (hahead.placed_le place)
        exact ih hnext (size_pass rows before).le (hahead.fits hfits) (by omega)

/-- With room for everything in the first pass, there is room in all. -/
theorem Coded.settle_cases (hF : F.Coded) (rows : List PlacedRow) {before : Array Nat}
    (hshrinks : CodesLe (F.placed (F.pass rows before).offsets) (F.placed before))
    (hfits : (F.pass rows before).fits = true) (passes : Nat) :
    (∃ p, F.settle rows passes before = .settled p) ∨ F.settle rows passes before = .unsettled := by
  induction passes generalizing before with
  | zero => exact .inr rfl
  | succ passes ih =>
    by_cases hsame : (F.pass rows before).offsets = before
    · exact .inl ⟨_, settle_of_eq hfits hsame passes⟩
    · have hahead := Ahead.pass hF hshrinks rows
      rw [settle_of_ne hfits hsame]
      exact ih (fun place => VCode.length_code_mono (hahead.placed_le place)) (hahead.fits hfits)

end RowFormat

theorem Graph.Ordered.perm {G : Graph} {order order' : List State} (h : G.Ordered order) (h' : G.Ordered order') :
    order.Perm order' := by
  refine (List.perm_ext_iff_of_nodup h.nodup h'.nodup).2 ?_
  intro s
  rw [h.mem_iff, h'.mem_iff]

namespace CompactWriter

theorem length_arcBytes_mono {address address' : Nat → Nat} (h : CodesLe address address') (table : LabelTable)
    (place : Nat) (a : PlacedArc) :
    (arcBytes table address place a).length ≤ (arcBytes table address' place a).length := by
  by_cases hshort : isShort place a
  · simp [arcBytes, hshort]
  · cases htarget : a.target with
    | none => simp [arcBytes, hshort, htarget]
    | some i => simpa [arcBytes, hshort, htarget] using h i

theorem coded_format (table : LabelTable) (numbers : Bool) (root : Option Nat) :
    (format table numbers root).Coded := by
  refine ⟨?_, ?_, ?_⟩
  · intro address address' h
    cases root with
    | none => exact Nat.le_refl _
    | some i => simpa [format, opening] using h i
  · intro address address' h place r
    have harcs (as : List PlacedArc) : (as.flatMap (arcBytes table address place)).length ≤
        (as.flatMap (arcBytes table address' place)).length := by
      induction as with
      | nil => exact Nat.le_refl 0
      | cons a as ih =>
        have hfirst := length_arcBytes_mono h table place a
        simp only [List.flatMap_cons, List.length_append]
        omega
    simpa [format] using harcs r.arcs
  · intro address address' place hle r hfits
    have hlt : address' place < 2 ^ 32 := of_decide_eq_true hfits
    exact decide_eq_true (Nat.lt_of_le_of_lt hle hlt)

/-- The most bytes that a row takes, whatever its addresses. -/
def rowRoom (r : PlacedRow) : Nat := 5 + 7 * r.arcs.length

theorem length_labelBytes_le (table : LabelTable) (label : UInt8) (marks : Nat) :
    (labelBytes table label marks).length ≤ 2 := by
  rw [labelBytes]
  split <;> simp

theorem length_countBytes_le (numbers : Bool) {n : Nat} (h : n < 2 ^ 32) : (countBytes numbers n).length ≤ 5 := by
  have hle : (VCode.code n).length ≤ 5 := VCode.length_code_le_maxLength h
  cases numbers with
  | false => simp [countBytes]
  | true => simpa [countBytes] using hle

theorem length_code_target_le {address : Nat → Nat} (h : ∀ place, address place < 2 ^ 32) (target : Option Nat) :
    (VCode.code (target.elim 0 address)).length ≤ 5 := by
  apply VCode.length_code_le_maxLength
  cases target with
  | none => exact Nat.two_pow_pos 32
  | some i => exact h i

theorem length_arcBytes_le {address : Nat → Nat} (h : ∀ place, address place < 2 ^ 32) (table : LabelTable) (place : Nat)
    (a : PlacedArc) : (arcBytes table address place a).length ≤ 7 := by
  have hcode := length_code_target_le h a.target
  by_cases hshort : isShort place a
  · have hlabel := length_labelBytes_le table a.label (marks a.isFinal a.isLast true)
    rw [arcBytes, if_pos hshort]
    omega
  · have hlabel := length_labelBytes_le table a.label (marks a.isFinal a.isLast false)
    rw [arcBytes, if_neg hshort, List.length_append]
    omega

theorem length_row_le {address : Nat → Nat} (h : ∀ place, address place < 2 ^ 32) (table : LabelTable) (numbers : Bool)
    (root : Option Nat) (place : Nat) {r : PlacedRow} (hcount : r.count < 2 ^ 32) :
    ((format table numbers root).row address place r).length ≤ rowRoom r := by
  have harcs (as : List PlacedArc) : (as.flatMap (arcBytes table address place)).length ≤ 7 * as.length := by
    induction as with
    | nil => exact Nat.le_refl 0
    | cons a as ih =>
      have hfirst := length_arcBytes_le h table place a
      simp only [List.flatMap_cons, List.length_append, List.length_cons]
      omega
  have hhead := length_countBytes_le numbers hcount
  have htail := harcs r.arcs
  simp only [format, List.length_append, rowRoom]
  omega

theorem length_opening_le {address : Nat → Nat} (h : ∀ place, address place < 2 ^ 32) (table : LabelTable)
    (numbers : Bool) (root : Option Nat) : (opening table numbers root address).length ≤ 12 := by
  have hcount := length_countBytes_le numbers (n := 0) (by decide)
  have hlabel := length_labelBytes_le table epsilonLabel (marks false true false)
  have hcode := length_code_target_le h root
  simp only [opening, List.length_append]
  omega

section

variable (table : LabelTable) (numbers : Bool) (root : Option Nat) {rows : List PlacedRow}
  (hcounts : ∀ r ∈ rows, r.count < 2 ^ 32)

include hcounts

/-- A pass finds room as long as the last of the rows that are left begins within 32 bits. -/
theorem foldl_room {before : Array Nat} (hbefore : ∀ place, (format table numbers root).placed before place < 2 ^ 32)
    {p : Pass} (hplaced : ∀ place, (format table numbers root).placed p.offsets place < 2 ^ 32) (hfits : p.fits = true)
    (hroom : rows = [] ∨ p.body.size + (rows.dropLast.map rowRoom).sum < 2 ^ 32) :
    (rows.foldl ((format table numbers root).step before) p).fits = true ∧
      ∀ place, (format table numbers root).placed
        (rows.foldl ((format table numbers root).step before) p).offsets place < 2 ^ 32 := by
  induction rows generalizing p with
  | nil => exact ⟨hfits, hplaced⟩
  | cons r rows ih =>
    have hroom := hroom.resolve_left (by simp)
    have hpushed (place : Nat) : (format table numbers root).placed (p.offsets.push p.body.size) place < 2 ^ 32 := by
      rw [RowFormat.placed_push]
      by_cases hlast : place = p.offsets.size
      · rw [if_pos hlast]
        omega
      · rw [if_neg hlast]
        exact hplaced place
    have haddress (place : Nat) :
        (format table numbers root).address before (p.offsets.push p.body.size) place < 2 ^ 32 := by
      rw [RowFormat.address_eq]
      split
      · exact hpushed place
      · exact hbefore place
    have hrow := length_row_le haddress table numbers root p.offsets.size (hcounts r (by simp))
    apply ih fun r' hr' => hcounts r' (List.mem_cons_of_mem r hr')
    · simpa only [RowFormat.step_offsets] using hpushed
    · rw [RowFormat.step_fits, hfits, Bool.true_and]
      exact decide_eq_true (haddress _)
    · rw [RowFormat.size_step]
      rcases List.eq_nil_or_concat rows with rfl | ⟨front, last, rfl⟩
      · exact .inl rfl
      · refine .inr ?_
        rw [List.concat_eq_append, ← List.cons_append, List.dropLast_concat, List.map_cons, List.sum_cons] at hroom
        rw [List.concat_eq_append, List.dropLast_concat]
        omega

variable (hroom : 12 + (rows.dropLast.map rowRoom).sum < 2 ^ 32)

include hroom

theorem pass_room : ((format table numbers root).pass rows #[]).fits = true ∧
    ∀ place, (format table numbers root).placed ((format table numbers root).pass rows #[]).offsets place < 2 ^ 32 := by
  have hunplaced (place : Nat) : (format table numbers root).placed #[] place < 2 ^ 32 := by
    show 2 ^ 32 - 1 < 2 ^ 32
    decide
  have haddress (place : Nat) : (format table numbers root).address #[] #[] place < 2 ^ 32 := hunplaced place
  have hopening := length_opening_le haddress table numbers root
  apply foldl_room table numbers root hcounts hunplaced hunplaced rfl
  right
  show (opening table numbers root _).toArray.size + _ < _
  rw [List.size_toArray]
  omega

theorem pass_shrinks : CodesLe
    ((format table numbers root).placed ((format table numbers root).pass rows #[]).offsets)
    ((format table numbers root).placed #[]) := by
  intro place
  have hlt := (pass_room table numbers root hcounts hroom).2 place
  exact VCode.length_code_mono (Nat.le_pred_of_lt hlt)

/-- So many passes are enough for rows that have room: each address has at first a code of five bytes, and never one of
none. -/
theorem format_settles {passes : Nat} (hpasses : 4 * rows.length + 2 ≤ passes) :
    ∃ p, (format table numbers root).settle rows passes #[] = .settled p := by
  obtain ⟨k, rfl⟩ : ∃ k, passes = k + 2 := ⟨passes - 2, by omega⟩
  have hfits := (pass_room table numbers root hcounts hroom).1
  apply (coded_format table numbers root).settle rows (pass_shrinks table numbers root hcounts hroom) (Nat.zero_le _) hfits
  have hfive (place : Nat) : (VCode.code ((format table numbers root).placed #[] place)).length = 5 := by
    simp [RowFormat.placed, format, unplaced, VCode.length_code]
  have hweight (n : Nat) : (format table numbers root).weight n #[] = 5 * n := by
    induction n with
    | zero => rfl
    | succ n ih => rw [RowFormat.weight, ih, hfive, Nat.mul_succ]
  have hfirst := hweight rows.length
  omega

theorem format_settle_cases (passes : Nat) : (∃ p, (format table numbers root).settle rows passes #[] = .settled p) ∨
    (format table numbers root).settle rows passes #[] = .unsettled :=
  (coded_format table numbers root).settle_cases rows (pass_shrinks table numbers root hcounts hroom)
    (pass_room table numbers root hcounts hroom).1 passes

end

theorem search_total {layoutAt : Nat → Except WriteError Settled} {e : WriteError} {Q : Prop}
    (h : ∀ cut, (∃ l, layoutAt cut = .ok l) ∨ layoutAt cut = .error e ∧ Q) (step last cut : Nat) (best : Settled) :
    (∃ l, search layoutAt step last cut best = .ok l) ∨ search layoutAt step last cut best = .error e ∧ Q := by
  induction hn : best.size using Nat.strongRecOn generalizing cut best with
  | ind n ih =>
    rw [search]
    by_cases hcut : 0 < step ∧ cut ≤ last
    · rw [if_pos hcut]
      rcases h cut with ⟨found, hfound⟩ | ⟨herror, hQ⟩
      · rw [hfound, ok_bind]
        by_cases hbetter : found.size < best.size
        · rw [dif_pos hbetter]
          exact ih found.size (hn ▸ hbetter) (nextCut step cut) found rfl
        · rw [dif_neg hbetter]
          exact .inl ⟨best, rfl⟩
      · rw [herror]
        exact .inr ⟨rfl, hQ⟩
    · rw [if_neg hcut]
      exact .inl ⟨best, rfl⟩

/-- The one way in which a layout is not found, for which it takes so many states. -/
def unsettledError : WriteError := .inconsistent (.unsettled .compact maxPasses)

theorem room_of_sum {rows : List PlacedRow} (h : 12 + (rows.map rowRoom).sum ≤ 2 ^ 32) :
    12 + (rows.dropLast.map rowRoom).sum < 2 ^ 32 := by
  rcases List.eq_nil_or_concat rows with rfl | ⟨front, last, rfl⟩
  · decide
  · have hspan : 5 ≤ rowRoom last := Nat.le_add_right 5 _
    rw [List.concat_eq_append, List.map_append, List.sum_append, List.map_singleton, List.sum_singleton] at h
    rw [List.concat_eq_append, List.dropLast_concat]
    omega

section

variable {A : Automaton} {states : List State} (hstates : A.graph.Ordered states)

include hstates

/-- Few enough arcs leave room for every order of the states. -/
theorem order_room (hread : A.Readable) (hroom : 12 * (1 + (states.map fun t => (A.graph.row t).length).sum) ≤ 2 ^ 32)
    {order : List State} (horder : A.graph.Ordered order) (k : State → Nat) :
    12 + ((A.graph.plan k order).rows.dropLast.map rowRoom).sum < 2 ^ 32 := by
  have hperm := horder.perm hstates
  have hne (t : State) (ht : t ∈ states) : A.graph.row t ≠ [] := by
    obtain ⟨a, -, hcarries⟩ := Automaton.row_eq_ok.1 (hread.row ((hstates.mem_iff t).1 ht))
    exact hcarries.ne_nil
  have hlength (place : State → Nat) (ts : List Transition) : (placeArcs place ts).length = ts.length := by
    simpa using congrArg List.length (PlacedArc.map_target_placeArcs place ts)
  have hrows : ((A.graph.plan k order).rows.map rowRoom) = order.map fun t => 5 + 7 * (A.graph.row t).length := by
    rw [Graph.plan_eq, List.map_map]
    refine List.map_congr_left fun t _ => ?_
    simp only [Function.comp_apply, rowRoom, hlength]
  have hsum {ts : List State} (hts : ∀ t ∈ ts, A.graph.row t ≠ []) :
      (ts.map fun t => 5 + 7 * (A.graph.row t).length).sum ≤ 12 * (ts.map fun t => (A.graph.row t).length).sum := by
    induction ts with
    | nil => exact Nat.le_refl 0
    | cons t ts ih =>
      have hpos := List.length_pos_iff.2 (hts t (by simp))
      have hrest := ih fun u hu => hts u (List.mem_cons_of_mem t hu)
      simp only [List.map_cons, List.sum_cons]
      omega
  have hall := hsum hne
  apply room_of_sum
  rw [hrows, (hperm.map _).sum_eq]
  omega

variable (table : LabelTable) {count : Option (State → Nat)} (hcount : ∀ t, (count.getD fun _ => 0) t < 2 ^ 32)
  (hroom : ∀ order, A.graph.Ordered order →
    12 + ((A.graph.plan (count.getD fun _ => 0) order).rows.dropLast.map rowRoom).sum < 2 ^ 32)

include hcount hroom

theorem layout_total {moved : List State} (hmoved : ∀ t ∈ moved, t ∈ states) :
    (∃ l, layout ⟨A.graph, table, count⟩ moved = .ok l) ∨
      layout ⟨A.graph, table, count⟩ moved = .error unsettledError ∧ maxPasses < 4 * states.length + 2 := by
  have horder := Graph.linearize_ordered fun t ht => (hstates.mem_iff t).1 (hmoved t ht)
  have hspan := hroom _ horder
  have hcounts : ∀ r ∈ (A.graph.plan (count.getD fun _ => 0) (A.graph.linearize moved)).rows, r.count < 2 ^ 32 := by
    intro r hr
    rw [Graph.plan_eq] at hr
    obtain ⟨t, -, rfl⟩ := List.mem_map.1 hr
    exact hcount t
  have hlength : (A.graph.plan (count.getD fun _ => 0) (A.graph.linearize moved)).rows.length = states.length := by
    rw [Graph.plan_eq, List.length_map, (horder.perm hstates).length_eq]
  generalize hplan : A.graph.plan (count.getD fun _ => 0) (A.graph.linearize moved) = plan at hspan hcounts hlength
  have hsubject : Subject.plan ⟨A.graph, table, count⟩ (A.graph.linearize moved) = plan := hplan
  rcases format_settle_cases table count.isSome plan.root hcounts hspan maxPasses with ⟨p, hp⟩ | hunsettled
  · left
    simp [layout, hsubject, Subject.format, hp]
  · refine .inr ⟨?_, ?_⟩
    · simp [layout, hsubject, Subject.format, hunsettled, unsettledError]
    · by_contra hfew
      have hpasses : 4 * plan.rows.length + 2 ≤ maxPasses := by omega
      obtain ⟨p, hp⟩ := format_settles table count.isSome plan.root hcounts hspan hpasses
      rw [hp] at hunsettled
      cases hunsettled

theorem bestLayout_total (tuning : Tuning) :
    (∃ l, bestLayout ⟨A.graph, table, count⟩ tuning states = .ok l) ∨
      bestLayout ⟨A.graph, table, count⟩ tuning states = .error unsettledError ∧ maxPasses < 4 * states.length + 2 := by
  have hlayout {moved : List State} (hmoved : ∀ t ∈ moved, t ∈ states) :=
    layout_total hstates table hcount hroom hmoved
  have hnone : ∀ t ∈ ([] : List State), t ∈ states := by simp
  rw [bestLayout]
  rcases hlayout hnone with ⟨baseline, hbaseline⟩ | ⟨herror, hmany⟩
  · rw [hbaseline, ok_bind]
    split
    · exact .inl ⟨baseline, rfl⟩
    · apply search_total
      intro cut
      exact hlayout fun t ht => mem_of_mem_candidates (List.mem_of_mem_take ht)
  · rw [herror]
    exact .inr ⟨rfl, hmany⟩

theorem writeSubject_total (w : CompactWriter) :
    (w.writeSubject ⟨A.graph, table, count⟩ states).result =
        .ok (w.writeSubject ⟨A.graph, table, count⟩ states).bytes.length ∨
      w.writeSubject ⟨A.graph, table, count⟩ states = .failed [.progress 10] unsettledError ∧
        maxPasses < 4 * states.length + 2 := by
  rcases bestLayout_total hstates table hcount hroom w.tuning with ⟨l, hl⟩ | ⟨herror, hmany⟩
  · rw [writeSubject_eq hl]
    exact .inl (Stages.result_script _)
  · refine .inr ⟨?_, hmany⟩
    simp only [writeSubject, herror]

end

/-- What is written of an automaton when no flag is refused. -/
theorem script_supported (w : CompactWriter) {A : Automaton} (hread : A.Readable) (hacyclic : A.graph.Acyclic)
    (hflags : unsupported? .compact supported w.flags = none) : ∃ states count, A.survey = .ok states ∧
      A.Surveyed states ∧ (∀ t, (count.getD fun _ => 0) t < 2 ^ 32) ∧
      w.script A = .ok (w.writeSubject ⟨A.graph, .ofLabels (A.graph.labels states), count⟩ states) := by
  obtain ⟨states, hsurvey, hstates⟩ := hread.survey
  by_cases hnumbers : w.flags.numbers
  · obtain ⟨counts, hcounts, hcounted⟩ := hread.counts hacyclic
    refine ⟨states, some (counts.getD · 0), hsurvey, hstates, ?_, ?_⟩
    · intro t
      have hle := hcounted.le_maxCount t
      rw [maxCount] at hle
      show counts.getD t 0 < 2 ^ 32
      omega
    · simp [script, hflags, hsurvey, hnumbers, hcounts]
  · refine ⟨states, none, hsurvey, hstates, fun _ => Nat.two_pow_pos 32, ?_⟩
    simp [script, hflags, hsurvey, hnumbers]

end CompactWriter

namespace Builder

open CompactWriter

/-- The automaton of some words is written to the end, or else its offsets still change in the last pass allowed, for which
it takes more states than a quarter of the passes. Nothing has been written then. -/
theorem build_settles {W : List Word} {b : RecordBuffer} (hb : build W = .ok b) (hsize : b.data.size ≤ 2 ^ 31)
    (w : CompactWriter) (hflags : unsupported? .compact supported w.flags = none) :
    ∃ script states, w.script b.automaton = .ok script ∧ b.automaton.survey = .ok states ∧
      (script.result = .ok script.bytes.length ∨
        script = .failed [.progress 10] (.inconsistent (.unsettled .compact maxPasses)) ∧
          maxPasses < 4 * states.length + 2) := by
  obtain ⟨p, root, rfl, h⟩ := finished_of_build hb
  obtain ⟨states, count, hsurvey, hstates, hcount, hscript⟩ := w.script_supported h.readable h.acyclic hflags
  have harcs := h.sum_rows hstates
  have hbytes : (p.toBytes root).size = Record.size * (1 + Frozen.arcs p.states) := Pool.size_toBytes p root
  have hroom : 12 * (1 + (states.map fun t => ((p.reader root).graph.row t).length).sum) ≤ 2 ^ 32 := by
    have hle : (p.toBytes root).size ≤ 2 ^ 31 := hsize
    rw [hbytes, Record.size] at hle
    rw [harcs]
    omega
  have hspan (order : List State) (horder : (p.reader root).graph.Ordered order) :=
    order_room hstates.toOrdered h.readable hroom horder (count.getD fun _ => 0)
  exact ⟨_, states, hscript, hsurvey, writeSubject_total hstates.toOrdered _ hcount hspan w⟩

theorem build_settles_shared : ∃ b script, build [[97, 99], [98, 99]] = .ok b ∧
    ({} : CompactWriter).script b.automaton = .ok script ∧ script.result = .ok script.bytes.length := by
  have hrun : (do
      let b ← (build [[97, 99], [98, 99]]).toOption
      let states ← b.automaton.survey.toOption
      return (b.data.size, states.length)) = some (24, 2) := by cbv
  simp only [Option.bind_eq_bind, Option.bind_eq_some_iff, toOption_eq_some, Option.pure_def, Option.some.injEq,
    Prod.mk.injEq] at hrun
  obtain ⟨b, hb, states, hstates, hsize, hlength⟩ := hrun
  obtain ⟨script, states', hscript, hstates', hdone⟩ := build_settles hb (by omega) {} rfl
  obtain rfl := Except.ok.inj (hstates.symm.trans hstates')
  have hfew : ¬maxPasses < 4 * states.length + 2 := by
    rw [hlength]
    decide
  exact ⟨b, script, hb, hscript, hdone.resolve_right fun h => hfew h.2⟩

end Builder

end WordAutomata
