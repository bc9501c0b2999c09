import WordAutomata.Proofs.UniformWriter

namespace WordAutomata

namespace RowFormat

variable {F : RowFormat} {rows : List PlacedRow} {before : Array Nat}

theorem pass_concat (rows : List PlacedRow) (r : PlacedRow) (before : Array Nat) :
    F.pass (rows ++ [r]) before = F.step before (F.pass rows before) r := by
  rw [pass, List.foldl_append]
  rfl

/-- In a pass without room for everything, some address had none when its row was written. -/
theorem exists_of_fits_eq_false (h : (F.pass rows before).fits = false) :
    ∃ i r found, rows[i]? = some r ∧ found.toList <+: (F.pass rows before).offsets.toList ∧
      F.fits (F.address before found) i r = false := by
  induction rows using List.reverseRecOn with
  | nil => cases h
  | append_singleton rows r ih =>
    rw [pass_concat] at h ⊢
    have hprefix : (F.pass rows before).offsets.toList <+: (F.step before (F.pass rows before) r).offsets.toList := by
      rw [step_offsets, Array.toList_push]
      exact List.prefix_append _ _
    rcases Bool.and_eq_false_iff.1 h with hsofar | hhere
    · obtain ⟨i, r', found, hr', hfound, hno⟩ := ih hsofar
      have hlt := (List.getElem?_eq_some_iff.1 hr').1
      exact ⟨i, r', found, by rw [List.getElem?_append_left hlt, hr'], hfound.trans hprefix, hno⟩
    · refine ⟨rows.length, r, _, by simp, List.prefix_rfl, ?_⟩
      rwa [← size_pass (F := F) rows before]

/-- A search that finds no room ends with a pass that finds none, from the offsets given or those of a pass before. -/
theorem pass_of_tooNarrow {passes : Nat} {offsets : Array Nat} (h : F.settle rows passes before = .tooNarrow offsets) :
    ∃ b, (b = before ∨ ∃ c, b = (F.pass rows c).offsets) ∧ (F.pass rows b).fits = false ∧
      offsets = (F.pass rows b).offsets := by
  induction passes generalizing before with
  | zero => cases h
  | succ passes ih =>
    rw [settle] at h
    split at h
    · rename_i hfits
      exact ⟨before, .inl rfl, by simpa using hfits, by simpa using h.symm⟩
    · split at h
      · cases h
      · obtain ⟨b, hb, hrest⟩ := ih h
        exact ⟨b, .inr (hb.elim (fun hb => ⟨before, hb⟩) id), hrest⟩

end RowFormat

namespace UniformWriter

/-- Where the state at a place begins when all addresses have this width. -/
def offset (countWidth width : Nat) (hasRoot : Bool) (rows : List PlacedRow) (place : Nat) : Nat :=
  openingSize countWidth width hasRoot + ((rows.take place).zipIdx.map fun x => rowSize countWidth width x.2 x.1).sum

section

variable {countWidth width : Nat} {hasRoot : Bool} {rows : List PlacedRow}

theorem offset_concat (r : PlacedRow) {place : Nat} (h : place ≤ rows.length) :
    offset countWidth width hasRoot (rows ++ [r]) place = offset countWidth width hasRoot rows place := by
  rw [offset, List.take_append_of_le_length h]
  rfl

theorem offset_behind (r : PlacedRow) : offset countWidth width hasRoot (rows ++ [r]) (rows.length + 1) =
    offset countWidth width hasRoot rows rows.length + rowSize countWidth width rows.length r := by
  have htake : (rows ++ [r]).take (rows.length + 1) = rows ++ [r] := List.take_of_length_le (by simp)
  simp [offset, htake, List.zipIdx_append, Nat.add_assoc]

theorem offset_succ {place : Nat} {r : PlacedRow} (hr : rows[place]? = some r) :
    offset countWidth width hasRoot rows (place + 1) =
      offset countWidth width hasRoot rows place + rowSize countWidth width place r := by
  have hlt := (List.getElem?_eq_some_iff.1 hr).1
  have hlength : (rows.take place).length = place := List.length_take_of_le (Nat.le_of_lt hlt)
  simp [offset, List.take_add_one, hr, List.zipIdx_append, hlength, Nat.add_assoc]

theorem offset_mono {width' : Nat} (h : width ≤ width') (place : Nat) :
    offset countWidth width hasRoot rows place ≤ offset countWidth width' hasRoot rows place := by
  have hrow (i : Nat) (r : PlacedRow) : rowSize countWidth width i r ≤ rowSize countWidth width' i r := by
    rw [rowSize_eq_sum, rowSize_eq_sum]
    refine Nat.add_le_add_left (List.sum_le_sum fun a _ => ?_) countWidth
    rw [arcSize, arcSize]
    split <;> omega
  have hrows := List.sum_le_sum (l := (rows.take place).zipIdx) (fun x _ => hrow x.2 x.1)
  rw [offset, offset, openingSize, openingSize]
  split <;> omega

theorem size_step (before : Array Nat) (p : Pass) (r : PlacedRow) :
    ((format countWidth width hasRoot).step before p r).body.size =
      p.body.size + rowSize countWidth width p.offsets.size r := by
  rw [RowFormat.size_step, length_row]

/-- Whatever addresses a pass holds, it puts the states where they begin at its width. -/
theorem pass_eq (before : Array Nat) :
    ((format countWidth width hasRoot).pass rows before).offsets.toList =
        (List.range rows.length).map (offset countWidth width hasRoot rows) ∧
      ((format countWidth width hasRoot).pass rows before).body.size =
        offset countWidth width hasRoot rows rows.length := by
  induction rows using List.reverseRecOn with
  | nil => exact ⟨rfl, length_opening countWidth width hasRoot⟩
  | append_singleton rows r ih =>
    obtain ⟨hoffsets, hsize⟩ := ih
    have hplace : ((format countWidth width hasRoot).pass rows before).offsets.size = rows.length :=
      RowFormat.size_pass rows before
    have hsame : (List.range rows.length).map (offset countWidth width hasRoot (rows ++ [r])) =
        (List.range rows.length).map (offset countWidth width hasRoot rows) :=
      List.map_congr_left fun i hi => offset_concat r (Nat.le_of_lt (List.mem_range.1 hi))
    rw [RowFormat.pass_concat, List.length_append, List.length_singleton]
    constructor
    · rw [RowFormat.step_offsets, Array.toList_push, hoffsets, hsize, List.range_succ, List.map_append, hsame,
        List.map_singleton, offset_concat r (Nat.le_refl _)]
    · rw [size_step, hsize, hplace, offset_behind]

theorem placed_pass (before : Array Nat) {place : Nat} (h : place < rows.length) :
    (format countWidth width hasRoot).placed ((format countWidth width hasRoot).pass rows before).offsets place =
      offset countWidth width hasRoot rows place := by
  rw [RowFormat.placed, ← Array.getElem?_toList, (pass_eq before).1, List.getElem?_map, List.getElem?_range h]
  rfl

/-- Some offsets, as they are read during a pass, are nowhere behind the right ones. -/
def Behind (countWidth width : Nat) (hasRoot : Bool) (rows : List PlacedRow) (before : Array Nat) : Prop :=
  ∀ place, (format countWidth width hasRoot).placed before place ≤ offset countWidth width hasRoot rows place

theorem behind_empty : Behind countWidth width hasRoot rows #[] := fun _ => Nat.zero_le _

theorem behind_pass {width' : Nat} (h : width ≤ width') (before : Array Nat) :
    Behind countWidth width' hasRoot rows ((format countWidth width hasRoot).pass rows before).offsets := by
  intro place
  by_cases hplace : place < rows.length
  · exact Nat.le_trans (placed_pass before hplace).le (offset_mono h place)
  · rw [RowFormat.placed_of_size_le ((RowFormat.size_pass rows before).le.trans (Nat.le_of_not_lt hplace))]
    exact Nat.zero_le _

/-- Every address of the layout has room beside its marks; those of the opening are 0. -/
def Roomy (countWidth width : Nat) (plan : Plan) : Prop :=
  ∀ i r, plan.rows[i]? = some r → ∀ a ∈ r.arcs, isShort i a = false →
    combine (a.target.elim 0 (offset countWidth width plan.root.isSome plan.rows)) (marks a.isFinal a.isLast) <
      256 ^ width

/-- What a pass finds no room for has none in the layout. -/
theorem not_roomy {plan : Plan} {before : Array Nat}
    (hbefore : Behind countWidth width plan.root.isSome plan.rows before)
    (hfits : ((format countWidth width plan.root.isSome).pass plan.rows before).fits = false) :
    ¬Roomy countWidth width plan := by
  intro hroomy
  obtain ⟨i, r, found, hr, hfound, hno⟩ := RowFormat.exists_of_fits_eq_false hfits
  have haddress (place : Nat) : (format countWidth width plan.root.isSome).address before found place ≤
      offset countWidth width plan.root.isSome plan.rows place := by
    rw [RowFormat.address_eq]
    split
    · rw [RowFormat.placed_of_prefix hfound ‹_›]
      exact behind_pass (Nat.le_refl width) before place
    · exact hbefore place
  obtain ⟨a, ha, hnofit⟩ : ∃ a ∈ r.arcs, arcFits width
      ((format countWidth width plan.root.isSome).address before found) i a = false := by
    simpa [format] using hno
  obtain ⟨hshort, hwide⟩ := Bool.or_eq_false_iff.1 hnofit
  have hroom := hroomy i r hr a ha hshort
  have hover := mt Uniform.wideFits_iff.2 (Bool.eq_false_iff.1 hwide)
  have hle : a.target.elim 0 ((format countWidth width plan.root.isSome).address before found) ≤
      a.target.elim 0 (offset countWidth width plan.root.isSome plan.rows) := by
    cases a.target with
    | none => exact Nat.le_refl 0
    | some place => exact haddress place
  simp only [combine] at hroom hover
  omega

/-- The search passes over a width only if some address has no room at it. -/
theorem layout_least {plan : Plan} {before : Array Nat} {s : Settled}
    (hbefore : Behind countWidth width plan.root.isSome plan.rows before)
    (h : layout plan countWidth width before = .ok s) :
    width ≤ s.width ∧ ∀ g, width ≤ g → g < s.width → ¬Roomy countWidth g plan := by
  fun_induction layout plan countWidth width before with
  | case1 width before p hp =>
    obtain rfl := Except.ok.inj h
    exact ⟨Nat.le_refl _, fun g hle hlt => absurd hlt (Nat.not_lt.2 hle)⟩
  | case2 => cases h
  | case3 width before offsets hp hlt ih =>
    -- The first pass holds addresses of a narrower layout, any other one those of this width; neither are too large.
    obtain ⟨b, hb, hfits, rfl⟩ := RowFormat.pass_of_tooNarrow hp
    have hb' : Behind countWidth width plan.root.isSome plan.rows b := by
      rcases hb with rfl | ⟨c, rfl⟩
      · exact hbefore
      · exact behind_pass (Nat.le_refl width) c
    obtain ⟨hle, hnarrow⟩ := ih (behind_pass (Nat.le_succ width) b) h
    refine ⟨Nat.le_of_succ_le hle, fun g hg hlt => ?_⟩
    rcases Nat.eq_or_lt_of_le hg with rfl | hg
    · exact not_roomy hb' hfits
    · exact hnarrow g hg hlt
  | case4 => cases h

theorem Ready.placed_eq {plan : Plan} {s : Settled} (h : Ready plan countWidth s) {place : Nat}
    (hplace : place < plan.rows.length) :
    placed plan countWidth s place = offset countWidth s.width plan.root.isSome plan.rows place := by
  rw [← placed_pass s.pass.offsets hplace, h.pass_eq]
  rfl

/-- There is room for everything in the layout that the search ends with. -/
theorem Ready.roomy {plan : Plan} {s : Settled} (h : Ready plan countWidth s) (hplan : plan.Sound)
    (hsize : s.pass.body.size < 2 ^ 61) : Roomy countWidth s.width plan := by
  intro i r hr a ha hshort
  have htarget : a.target.elim 0 (placed plan countWidth s) =
        a.target.elim 0 (offset countWidth s.width plan.root.isSome plan.rows) ∧
      a.target.elim 0 (placed plan countWidth s) < 2 ^ 61 := by
    cases hj : a.target with
    | none => exact ⟨rfl, Nat.two_pow_pos 61⟩
    | some j =>
      have hlt := hplan.target_lt r (List.mem_of_getElem? hr) a ha j hj
      have hend := (h.stands hplan (List.getElem?_eq_getElem hlt)).le_size
      exact ⟨h.placed_eq hlt, by simp only [Option.elim_some]; omega⟩
  have hfits : arcFits s.width (placed plan countWidth s) i a = true := List.all_eq_true.1 (h.laid.fits i r hr) a ha
  rw [arcFits, hshort, Bool.false_or, Uniform.wideFits_iff, htarget.1] at hfits
  rcases hfits with hwide | hroom
  · -- The widest addresses are not checked; here it is the size of the body that keeps them small.
    obtain ⟨-, hhigh⟩ := h.width
    have hmarks := marks_lt a.isFinal a.isLast
    have height : s.width = 8 := by omega
    rw [← htarget.1, combine, height]
    omega
  · exact hroom

end

/-- Looking for the width of addresses always ends, with the least at which every address of the layout has room. -/
theorem script_width (w : UniformWriter) {A : Automaton} (hread : A.Readable)
    (hnumbers : w.flags.numbers = true → A.graph.Acyclic) (hseparators : w.separatorConflict? A = .ok none) :
    ∃ order count countWidth s, A.Surveyed order ∧ countWidth ≤ 4 ∧
      let plan := A.graph.plan count order
      w.script A = .ok (w.writePlan plan countWidth) ∧ layout plan countWidth 1 #[] = .ok s ∧
      w.writePlan plan countWidth = (w.stages countWidth s.width s.pass).script ∧
      s.pass.offsets.toList =
        (List.range plan.rows.length).map (offset countWidth s.width plan.root.isSome plan.rows) ∧
      (s.pass.body.size < 2 ^ 61 → IsLeast {g | 1 ≤ g ∧ g ≤ 8 ∧ Roomy countWidth g plan} s.width) := by
  obtain ⟨order, count, countWidth, horder, hwidth, hscript, -⟩ := w.script_eq hread hnumbers hseparators
  have hplan := hread.plan_sound horder.toOrdered count
  obtain ⟨s, hlayout, hready⟩ := layout_ready (A.graph.plan count order) countWidth (Nat.le_refl 1) (by decide) #[]
  refine ⟨order, count, countWidth, s, horder, hwidth, hscript, hlayout, ?_, ?_, ?_⟩
  · simp only [writePlan, hlayout, hready.emit_eq]
  · rw [← (pass_eq s.pass.offsets).1, hready.pass_eq]
  · intro hsize
    obtain ⟨-, hnarrow⟩ := layout_least behind_empty hlayout
    refine ⟨⟨hready.width.1, hready.width.2, hready.roomy hplan hsize⟩, ?_⟩
    rintro g ⟨hlow, -, hroomy⟩
    exact Nat.le_of_not_lt fun hlt => hnarrow g hlow hlt hroomy

/-- Two words with one last label, the second of them long enough to put the state that they share out of the reach of one
byte. -/
theorem script_width_built : ∃ b order count countWidth s,
    Builder.build [[97, 120], [98, 121, 121, 121, 121, 121, 121, 121, 120]] = .ok b ∧
    ({ flags := Flags.ofList [.numbers] } : UniformWriter).script b.automaton =
      .ok (({ flags := Flags.ofList [.numbers] } : UniformWriter).writePlan (b.automaton.graph.plan count order)
        countWidth) ∧
    layout (b.automaton.graph.plan count order) countWidth 1 #[] = .ok s ∧ countWidth = 1 ∧ s.width = 2 ∧
    IsLeast {g | 1 ≤ g ∧ g ≤ 8 ∧ Roomy countWidth g (b.automaton.graph.plan count order)} s.width := by
  have hrun : (do
      let b ← (Builder.build [[97, 120], [98, 121, 121, 121, 121, 121, 121, 121, 120]]).toOption
      let script ← (({ flags := Flags.ofList [.numbers] } : UniformWriter).script b.automaton).toOption
      return (script.bytes.length, script.bytes[7]?)) = some (46, some (0x12 : UInt8)) := by cbv
  simp only [Option.bind_eq_bind, Option.bind_eq_some_iff, toOption_eq_some, Option.pure_def, Option.some.injEq,
    Prod.mk.injEq] at hrun
  obtain ⟨b, hb, script, hscript, hlength, hbyte⟩ := hrun
  obtain ⟨p, root, rfl, h⟩ := Builder.finished_of_build hb
  obtain ⟨order, count, countWidth, s, -, hcount, hplan, hlayout, hwritten, -, hleast⟩ :=
    script_width { flags := Flags.ofList [.numbers] } h.readable (fun _ => h.acyclic) rfl
  obtain rfl := Except.ok.inj (hscript.symm.trans (hplan.trans (congrArg Except.ok hwritten)))
  rw [bytes_stages] at hlength hbyte
  have hsize : s.pass.body.size < 2 ^ 61 := by
    rw [List.length_append] at hlength
    have hle : s.pass.body.toList.length ≤ 46 := hlength ▸ Nat.le_add_left _ _
    rw [Array.length_toList] at hle
    omega
  have hleast := hleast hsize
  have hwidths : UInt8.ofNat (countWidth * 16 + s.width) = 0x12 := Option.some.inj hbyte
  have hbound := hleast.1.2.1
  have hsum := congrArg UInt8.toNat hwidths
  rw [UInt8.toNat_ofNat_of_lt' (show countWidth * 16 + s.width < 2 ^ 8 by omega)] at hsum
  have hsum : countWidth * 16 + s.width = 18 := hsum
  exact ⟨_, order, count, countWidth, s, hb, hplan, hlayout, by omega, by omega, hleast⟩

end UniformWriter

end WordAutomata
