import WordAutomata.Proofs.Minimal
import WordAutomata.Proofs.Passes
import WordAutomata.Proofs.Script
import WordAutomata.Proofs.Tally
import WordAutomata.Proofs.Uniform

namespace WordAutomata

namespace UniformWriter

theorem length_row (countWidth width : Nat) (hasRoot : Bool) (address : Nat → Nat) (place : Nat) (r : PlacedRow) :
    ((format countWidth width hasRoot).row address place r).length = rowSize countWidth width place r :=
  ((format countWidth width hasRoot).rowSize_eq address place r).symm

theorem rowSize_eq_sum (countWidth width place : Nat) (r : PlacedRow) :
    rowSize countWidth width place r = countWidth + (r.arcs.map (arcSize width place)).sum := by
  rw [rowSize]
  induction r.arcs with
  | nil => rfl
  | cons a arcs ih =>
    rw [arcsSize_cons, List.map_cons, List.sum_cons]
    omega

theorem format_steady (countWidth width : Nat) (hasRoot : Bool) : (format countWidth width hasRoot).Steady :=
  ⟨fun _ _ => rfl, fun _ _ _ _ => by rw [length_row, length_row]⟩

theorem format_fits (countWidth : Nat) (hasRoot : Bool) (address : Nat → Nat) (place : Nat) (r : PlacedRow) :
    (format countWidth 8 hasRoot).fits address place r = true := by
  show r.arcs.all (arcFits 8 address place) = true
  rw [List.all_eq_true]
  intro a _
  simp [arcFits, wideFits]

/-- A layout that is ready to be written. -/
structure Ready (plan : Plan) (countWidth : Nat) (s : Settled) : Prop where
  width : 1 ≤ s.width ∧ s.width ≤ 8
  pass_eq : (format countWidth s.width plan.root.isSome).pass plan.rows s.pass.offsets = s.pass
  fits : s.pass.fits = true

/-- The search for a layout always ends with one. -/
theorem layout_ready (plan : Plan) (countWidth : Nat) {width : Nat} (hlow : 1 ≤ width) (hhigh : width ≤ 8)
    (before : Array Nat) : ∃ s, layout plan countWidth width before = .ok s ∧ Ready plan countWidth s := by
  fun_induction layout plan countWidth width before with
  | case1 width before p hp =>
    obtain ⟨hpass, hfits⟩ := RowFormat.pass_of_settle hp
    exact ⟨⟨width, p⟩, rfl, ⟨⟨hlow, hhigh⟩, hpass, hfits⟩⟩
  | case2 width before hp =>
    rcases (format_steady countWidth width plan.root.isSome).settle_cases plan.rows 62 before with
      ⟨p, hp'⟩ | ⟨offsets, hp', -⟩
    · cases hp.symm.trans hp'
    · cases hp.symm.trans hp'
  | case3 width before offsets hp hlt ih => exact ih (by omega) (by omega)
  | case4 width before offsets hp hge =>
    -- No width is left, but eight bytes have room for every address.
    obtain rfl : width = 8 := by omega
    rcases (format_steady countWidth 8 plan.root.isSome).settle_cases plan.rows 62 before with
      ⟨p, hp'⟩ | ⟨-, -, b, hfalse⟩
    · cases hp.symm.trans hp'
    · rw [RowFormat.fits_pass (format_fits countWidth plan.root.isSome)] at hfalse
      cases hfalse

namespace Ready

variable {plan : Plan} {countWidth : Nat} {s : Settled} (h : Ready plan countWidth s)

include h

theorem emit_eq : emit plan countWidth s = .ok s.pass := by
  simp only [emit, h.pass_eq, RowFormat.moved?_self, h.fits]
  rfl

theorem laid : Laid (format countWidth s.width plan.root.isSome) plan.rows s.pass :=
  RowFormat.laid_of_pass h.pass_eq h.fits

end Ready

/-- What is read when a layout has been written. -/
def reader (w : UniformWriter) (countWidth : Nat) (s : Settled) : Uniform :=
  ⟨w.filler, w.annotation, countWidth, s.width, s.pass.body⟩

/-- The address of a place in a layout. -/
def placed (plan : Plan) (countWidth : Nat) (s : Settled) : Nat → Nat :=
  (format countWidth s.width plan.root.isSome).placed s.pass.offsets

namespace Ready

variable {plan : Plan} {countWidth : Nat} {s : Settled} (h : Ready plan countWidth s) (hplan : plan.Sound)

include h hplan

theorem stands {i : Nat} {r : PlacedRow} (hr : plan.rows[i]? = some r) :
    Stands s.pass.body plan.rows.length (placed plan countWidth s) i (little countWidth r.count)
      (r.arcs.flatMap (arcBytes s.width (placed plan countWidth s) i)) := by
  apply h.laid.stands hr rfl (flatMap_arcBytes_ne_nil (hplan.run r (List.mem_of_getElem? hr)) _ _ _)
  show opening countWidth s.width plan.root.isSome ≠ []
  simp [opening, wideArc]

/-- A state that ends at most at 2^32 is read with what 32 bits hold of the addresses of its arcs. -/
theorem row_cut (w : UniformWriter) {i : Nat} {r : PlacedRow} (hr : plan.rows[i]? = some r)
    (hroom : ∀ a ∈ r.arcs, Uniform.HasRoom s.width (placed plan countWidth s) i a)
    (hend : placed plan countWidth s i + countWidth +
      (r.arcs.flatMap (arcBytes s.width (placed plan countWidth s) i)).length ≤ 2 ^ 32) :
    (w.reader countWidth s).automaton.row ⟨UInt32.ofNat (placed plan countWidth s i)⟩ =
      .ok (r.arcs.map (PlacedArc.cut (placed plan countWidth s))) := by
  have hstands := h.stands hplan hr
  have hmem := List.mem_of_getElem? hr
  have hpos := List.length_pos_iff.2
    (flatMap_arcBytes_ne_nil (hplan.run r hmem) s.width (placed plan countWidth s) i)
  have hstate : (UInt32.ofNat (placed plan countWidth s i)).toNat = placed plan countWidth s i :=
    UInt32.toNat_ofNat_of_lt' (show placed plan countWidth s i < 2 ^ 32 by omega)
  have harc : (UInt32.ofNat (placed plan countWidth s i + countWidth)).toNat = placed plan countWidth s i + countWidth :=
    UInt32.toNat_ofNat_of_lt' (show placed plan countWidth s i + countWidth < 2 ^ 32 by omega)
  refine Automaton.row_eq_ok.2 ⟨⟨UInt32.ofNat (placed plan countWidth s i + countWidth)⟩, ?_, ?_⟩
  · show Except.ok (Arc.mk (UInt32.ofNat ((UInt32.ofNat (placed plan countWidth s i)).toNat + countWidth))) = _
    rw [hstate]
  · refine Uniform.carries_of_holds (u := w.reader countWidth s) h.width (hplan.run r hmem) hroom ?_ ?_ ?_
    · intro a ha hshort
      rw [isShort, Bool.and_eq_true, beq_iff_eq] at hshort
      rw [harc, hstands.next (hplan.target_lt r hmem a ha _ hshort.2), length_little]
      rfl
    · have harcs := hstands.holds_arcs
      rw [length_little] at harcs
      rw [harc]
      exact harcs
    · rw [harc]
      exact hend

theorem row_eq (w : UniformWriter) (hsmall : s.pass.body.size < 2 ^ 32) {i : Nat} {r : PlacedRow}
    (hr : plan.rows[i]? = some r) :
    (w.reader countWidth s).automaton.row ⟨UInt32.ofNat (placed plan countWidth s i)⟩ =
      .ok (r.arcs.map (PlacedArc.transition (placed plan countWidth s))) := by
  have hle := (h.stands hplan hr).le_size
  rw [length_little] at hle
  have hmem := List.mem_of_getElem? hr
  have hsound : ∀ a ∈ r.arcs, a.Sound (placed plan countWidth s) := by
    intro a ha j hj
    have htarget := h.stands hplan (List.getElem?_eq_getElem (hplan.target_lt r hmem a ha j hj))
    have hend := htarget.le_size
    exact ⟨htarget.pos, by omega⟩
  have hfits : ∀ a ∈ r.arcs, arcFits s.width (placed plan countWidth s) i a = true :=
    List.all_eq_true.1 (h.laid.fits i r hr)
  have hroom : ∀ a ∈ r.arcs, Uniform.HasRoom s.width (placed plan countWidth s) i a := by
    intro a ha hshort
    have hwide := hfits a ha
    rw [arcFits, hshort, Bool.false_or] at hwide
    exact Uniform.combine_lt hwide h.width.2 (marks_lt _ _) (hsound a ha).target_lt
  rw [h.row_cut hplan w hr hroom (by omega)]
  exact congrArg Except.ok (List.map_congr_left fun a ha => (hsound a ha).cut_eq)

theorem storedCount_eq (w : UniformWriter) (hsmall : s.pass.body.size < 2 ^ 32) (hwidth : 1 ≤ countWidth ∧ countWidth ≤ 8)
    {i : Nat} {r : PlacedRow} (hr : plan.rows[i]? = some r) (hroom : r.count < 256 ^ countWidth) :
    (w.reader countWidth s).automaton.storedCount ⟨UInt32.ofNat (placed plan countWidth s i)⟩ = .ok (some r.count) := by
  have hstands := h.stands hplan hr
  have hle := hstands.le_size
  rw [length_little] at hle
  have hstate : (UInt32.ofNat (placed plan countWidth s i)).toNat = placed plan countWidth s i :=
    UInt32.toNat_ofNat_of_lt' (show placed plan countWidth s i < 2 ^ 32 by omega)
  have hcount := Bytes.littleAt_eq hstands.holds_head hwidth
  rw [Nat.mod_eq_of_lt hroom] at hcount
  have hne : (w.reader countWidth s).countWidth ≠ 0 := by
    show countWidth ≠ 0
    omega
  show (w.reader countWidth s).storedCount _ = _
  rw [Uniform.storedCount, if_neg hne, hstate]
  show (do return some (← s.pass.body.littleAt (placed plan countWidth s i) countWidth)) = _
  rw [hcount]
  rfl

end Ready

/-- The arc that leads to the root. -/
def rootArc (width : Nat) (hasRoot : Bool) : List UInt8 :=
  if hasRoot then [epsilonLabel, UInt8.ofNat (marks false true + 4)] else wideArc width epsilonLabel (marks false true) 0

namespace Ready

variable {plan : Plan} {countWidth : Nat} {s : Settled} (h : Ready plan countWidth s) (w : UniformWriter)

include h

theorem holds_rootArc :
    s.pass.body.Holds (countWidth + 1 + s.width + countWidth) (rootArc s.width plan.root.isSome) := by
  have hopening : s.pass.body.Holds 0 (little countWidth 0 ++ wideArc s.width 0 0 0 ++ little countWidth 0 ++
    rootArc s.width plan.root.isSome) := h.laid.holds_opening
  have harc := (Bytes.holds_append.1 hopening).2
  rw [List.length_append, List.length_append, length_little, length_wideArc, Nat.zero_add] at harc
  rwa [Nat.add_assoc countWidth 1]

theorem shows_rootArc : (w.reader countWidth s).Shows (countWidth + 1 + s.width + countWidth) epsilonLabel false true
    plan.root.isSome := by
  have harc := h.holds_rootArc
  cases hroot : plan.root.isSome with
  | true =>
    rw [hroot, rootArc, if_pos rfl] at harc
    exact Uniform.shows_of_short harc
  | false =>
    rw [hroot, rootArc, if_neg (by decide)] at harc
    exact Uniform.shows_of_wide (u := w.reader countWidth s) h.width.1 harc

theorem isComplete_eq (hsize : countWidth ≤ 8) : (w.reader countWidth s).isComplete = true := by
  have hwidth := h.width
  have hnat : (UInt32.ofNat (countWidth + 1 + s.width + countWidth)).toNat = countWidth + 1 + s.width + countWidth :=
    UInt32.toNat_ofNat_of_lt' (show countWidth + 1 + s.width + countWidth < 2 ^ 32 by omega)
  have hshows := h.shows_rootArc w
  rw [← hnat] at hshows
  have hbehind := hshows.behind_eq
  rw [hnat] at hbehind
  have harc := h.holds_rootArc
  have hle : countWidth + 1 + s.width + countWidth + (if plan.root.isSome then 2 else 1 + s.width) ≤ s.pass.body.size := by
    cases hroot : plan.root.isSome with
    | true =>
      rw [hroot, rootArc, if_pos rfl] at harc
      exact harc.le_size (by simp)
    | false =>
      rw [hroot, rootArc, if_neg (by decide)] at harc
      have := harc.le_size (by simp [wideArc])
      rwa [length_wideArc] at this
  have hepsilon : (w.reader countWidth s).epsilon + (w.reader countWidth s).countWidth =
      countWidth + 1 + s.width + countWidth := rfl
  rw [Uniform.isComplete, hepsilon, hbehind]
  exact decide_eq_true hle

/-- The root stands right behind the state that leads to it. -/
theorem root_eq (hsize : countWidth ≤ 8) (hroot : plan.root = none ∨ plan.root = some 0 ∧ plan.rows ≠ []) :
    (w.reader countWidth s).automaton.root =
      .ok (plan.root.map fun i => ⟨UInt32.ofNat (placed plan countWidth s i)⟩) := by
  have hwidth := h.width
  have hepsilon : (UInt32.ofNat (countWidth + 1 + s.width)).toNat = countWidth + 1 + s.width :=
    UInt32.toNat_ofNat_of_lt' (show countWidth + 1 + s.width < 2 ^ 32 by omega)
  have hnat : (UInt32.ofNat (countWidth + 1 + s.width + countWidth)).toNat = countWidth + 1 + s.width + countWidth :=
    UInt32.toNat_ofNat_of_lt' (show countWidth + 1 + s.width + countWidth < 2 ^ 32 by omega)
  have hfirst : (w.reader countWidth s).automaton.root =
      (w.reader countWidth s).automaton.target ⟨UInt32.ofNat (countWidth + 1 + s.width + countWidth)⟩ := by
    show (w.reader countWidth s).automaton.target
      ⟨UInt32.ofNat ((UInt32.ofNat (countWidth + 1 + s.width)).toNat + countWidth)⟩ = _
    rw [hepsilon]
  have hshows := h.shows_rootArc w
  have harc := h.holds_rootArc
  rw [← hnat] at hshows harc
  rw [hfirst]
  rcases hroot with hnone | ⟨hzero, hne⟩
  · rw [hnone, rootArc] at harc
    have hroom : combine 0 (marks false true) < 256 ^ s.width :=
      Nat.lt_of_lt_of_le (by decide) (Nat.pow_le_pow_right (by decide) hwidth.1)
    rw [Uniform.target_wide hwidth hroom harc, hnone]
    rfl
  · have hplaced : placed plan countWidth s 0 = countWidth + 1 + s.width + countWidth + 2 := by
      apply (h.laid.placed_zero hne).trans
      show (opening countWidth s.width plan.root.isSome).length = _
      rw [opening, hzero, Option.isSome_some, if_pos rfl, List.length_append, List.length_append, List.length_append,
        length_little, length_wideArc, List.length_cons, List.length_cons, List.length_nil]
      omega
    have hnonzero : UInt32.ofNat (placed plan countWidth s 0) ≠ 0 := by
      intro hcontra
      have hback : (UInt32.ofNat (placed plan countWidth s 0)).toNat = placed plan countWidth s 0 :=
        UInt32.toNat_ofNat_of_lt' (show placed plan countWidth s 0 < 2 ^ 32 by omega)
      rw [hcontra, UInt32.toNat_zero] at hback
      omega
    rw [hshows.target_eq (by rw [hzero]; rfl), hnat, hzero, ← hplaced, if_neg hnonzero]
    rfl

/-- A body of less than 2^32 bytes is read back as what the plan says. -/
theorem readBack (hplan : plan.Sound) (hsize : countWidth ≤ 8)
    (hroot : plan.root = none ∨ plan.root = some 0 ∧ plan.rows ≠ []) (hsmall : s.pass.body.size < 2 ^ 32) :
    plan.ReadBack (placed plan countWidth s) (w.reader countWidth s).automaton := by
  refine ⟨h.root_eq w hsize hroot, fun i r hr => h.row_eq hplan w hsmall hr, ?_⟩
  apply h.laid.injective
  · intro i r hr
    exact List.append_ne_nil_of_right_ne_nil _ (flatMap_arcBytes_ne_nil (hplan.run r (List.mem_of_getElem? hr)) _ _ _)
  · intro i hi
    have hle := (h.stands hplan (List.getElem?_eq_getElem hi)).le_size
    have hlt : placed plan countWidth s i < 2 ^ 32 := by omega
    exact hlt

end Ready

theorem lt_pow_bytesNeeded (n : Nat) : n < 256 ^ bytesNeeded n := by
  fun_induction bytesNeeded n with
  | case1 => decide
  | case2 n hne ih =>
    rw [Nat.pow_succ]
    omega

theorem bytesNeeded_le {n k : Nat} (h : n < 256 ^ k) : bytesNeeded n ≤ k := by
  fun_induction bytesNeeded n generalizing k with
  | case1 => exact Nat.zero_le k
  | case2 n hne ih =>
    cases k with
    | zero => omega
    | succ k =>
      rw [Nat.pow_succ] at h
      have := ih (by omega : n / 256 < 256 ^ k)
      omega

theorem ofBytes_eq (w : UniformWriter) {plan : Plan} {countWidth : Nat} {s : Settled} (h : Ready plan countWidth s)
    (hsize : countWidth ≤ 4) :
    Uniform.ofBytes (w.head countWidth s.width ++ s.pass.body.toList).toArray = .ok (w.reader countWidth s) := by
  have hwidth := h.width
  have hlow : s.width % 16 = s.width := by omega
  have hhigh : (countWidth * 16 + s.width) % 256 / 16 = countWidth := by omega
  have hbody : (s.pass.body.toList.take s.pass.body.size).toArray = s.pass.body := by
    rw [← Array.length_toList, List.take_length]
  have hparse : Header.parse (w.head countWidth s.width ++ s.pass.body.toList).toArray = .ok ⟨Uniform.version⟩ := by
    rw [head, List.append_assoc]
    exact Header.parse_toBytes _ _
  have hlist : w.head countWidth s.width ++ s.pass.body.toList = 0x5c :: 0x66 :: 0x73 :: 0x61 :: 5 :: w.filler ::
    w.annotation :: UInt8.ofNat (countWidth * 16 + s.width) :: s.pass.body.toList := rfl
  have hcomplete := h.isComplete_eq w (by omega)
  have hok : ¬(s.width = 0 ∨ 8 < s.width) ∧ ¬4 < countWidth := by omega
  rw [reader] at hcomplete
  rw [Uniform.ofBytes, hparse, ok_bind, hlist]
  simp [Uniform.bodyOffset, Header.size, hlow, hhigh, hbody, hok, hcomplete, reader]

/-- Whatever is asked for is understood. -/
theorem unsupported?_eq (flags : Flags) : unsupported? .uniform supported flags = none := by
  have hmissing : flags.difference supported = .empty := by
    obtain ⟨flexible, stopBit, nextBit, numbers, separators⟩ := flags
    cases flexible <;> cases stopBit <;> cases nextBit <;> cases numbers <;> cases separators <;> decide
  simp [unsupported?, hmissing, Flags.isEmpty]

theorem bytes_stages (w : UniformWriter) (countWidth width : Nat) (p : Pass) :
    (w.stages countWidth width p).script.bytes = w.head countWidth width ++ p.body.toList :=
  Stages.bytes_script _

theorem writePlan_eq (w : UniformWriter) (plan : Plan) (countWidth : Nat) : ∃ s, Ready plan countWidth s ∧
    w.writePlan plan countWidth = (w.stages countWidth s.width s.pass).script := by
  obtain ⟨s, hs, h⟩ := layout_ready plan countWidth (Nat.le_refl 1) (by decide) #[]
  refine ⟨s, h, ?_⟩
  simp only [writePlan, hs, h.emit_eq]

section

variable {A : Automaton} {order : List State} (horder : A.Surveyed order) (count : State → Nat)

include horder

/-- The root is written first. -/
theorem plan_root : (A.graph.plan count order).root = none ∨
    (A.graph.plan count order).root = some 0 ∧ (A.graph.plan count order).rows ≠ [] := by
  rw [Graph.plan_eq]
  cases hroot : A.graph.root with
  | none => exact .inl rfl
  | some r =>
    have hhead := horder.head_eq
    rw [hroot, List.head?_eq_getElem?] at hhead
    right
    constructor
    · show some (Graph.placeIn order r) = some 0
      rw [Graph.placeIn_eq horder.nodup hhead]
    · show order.map _ ≠ []
      cases order with
      | nil => simp at hhead
      | cons => simp

/-- The stream of a plan is accepted, and if its body stays below 2^32 bytes it restores the automaton. -/
theorem writePlan_restored (hread : A.Readable) (w : UniformWriter) {countWidth : Nat} (hsize : countWidth ≤ 4) :
    let script := w.writePlan (A.graph.plan count order) countWidth
    script.result = .ok script.bytes.length ∧
    ∃ u, Uniform.ofBytes script.bytes.toArray = .ok u ∧ u.filler = w.filler ∧ u.annotation = w.annotation ∧
      u.body.size = script.bytes.length - Uniform.bodyOffset ∧
      (u.body.size < 2 ^ 32 → u.automaton.Readable ∧ ∃ f, A.graph.Iso u.automaton.graph f ∧
        ∀ s, A.graph.Reachable s → 1 ≤ countWidth → count s < 256 ^ countWidth →
          u.automaton.storedCount (f s) = .ok (some (count s))) := by
  intro script
  obtain ⟨s, h, hscript⟩ := w.writePlan_eq (A.graph.plan count order) countWidth
  have hplan := hread.plan_sound horder.toOrdered count
  have hbytes : script.bytes = w.head countWidth s.width ++ s.pass.body.toList := by
    rw [show script = _ from hscript, bytes_stages]
  have hlength : script.bytes.length = Uniform.bodyOffset + s.pass.body.size := by
    rw [hbytes, List.length_append, Array.length_toList]
    rfl
  refine ⟨?_, w.reader countWidth s, by rw [hbytes, w.ofBytes_eq h hsize], rfl, rfl, ?_, ?_⟩
  · rw [show script = _ from hscript]
    exact Stages.result_script _
  · rw [hlength, Nat.add_sub_cancel_left]
    rfl
  · intro hsmall
    have hback := h.readBack w hplan (by omega) (plan_root horder count) hsmall
    obtain ⟨hiso, hreadable⟩ := hback.iso horder.toOrdered
    refine ⟨hreadable, _, hiso, ?_⟩
    intro t ht hlow hroom
    exact h.storedCount_eq hplan w hsmall ⟨hlow, by omega⟩
      (Plan.row_of_reachable horder.toOrdered ht) hroom

end

/-- The width of counts has room for the count of every state. -/
theorem countWidth_cases {G : Graph} {counts : Std.TreeMap State Nat} (h : Counted G counts G.Reachable) :
    1 ≤ countWidth G.root (counts.getD · 0) ∧ countWidth G.root (counts.getD · 0) ≤ 4 ∧
      ∀ s, G.Reachable s → counts.getD s 0 < 256 ^ countWidth G.root (counts.getD · 0) := by
  have hle : bytesNeeded (G.root.elim 0 (counts.getD · 0)) ≤ 4 := by
    apply bytesNeeded_le
    cases G.root with
    | none =>
      show 0 < 256 ^ 4
      decide
    | some r =>
      have hmax := h.le_maxCount r
      rw [maxCount] at hmax
      show counts.getD r 0 < 256 ^ 4
      omega
  refine ⟨Nat.le_max_left _ _, Nat.max_le.2 ⟨by decide, hle⟩, ?_⟩
  intro s hs
  cases hroot : G.root with
  | none => exact absurd hs (Graph.not_reachable hroot s)
  | some r =>
    calc counts.getD s 0 ≤ counts.getD r 0 := h.le_root hroot hs
      _ < 256 ^ bytesNeeded (counts.getD r 0) := lt_pow_bytesNeeded _
      _ ≤ 256 ^ countWidth (some r) (counts.getD · 0) := Nat.pow_le_pow_right (by decide) (Nat.le_max_right _ _)

theorem script_of_conflict {w : UniformWriter} {A : Automaton} {e : WriteError}
    (h : w.separatorConflict? A = .ok (some e)) : w.script A = .ok (.failed [] e) := by
  rw [script, unsupported?_eq, h]
  rfl

/-- What is written: the reachable states, with their counts if these are asked for. -/
theorem script_eq (w : UniformWriter) {A : Automaton} (hread : A.Readable)
    (hnumbers : w.flags.numbers = true → A.graph.Acyclic) (hseparators : w.separatorConflict? A = .ok none) :
    ∃ order count countWidth, A.Surveyed order ∧ countWidth ≤ 4 ∧
      w.script A = .ok (w.writePlan (A.graph.plan count order) countWidth) ∧
      (w.flags.numbers = true → 1 ≤ countWidth ∧ ∃ counts, A.counts = .ok counts ∧
        ∀ s, A.graph.Reachable s → counts[s]? = some (count s) ∧ count s < 256 ^ countWidth) := by
  obtain ⟨order, hsurvey, horder⟩ := hread.survey
  rw [script, unsupported?_eq, hseparators, hsurvey]
  cases hflag : w.flags.numbers with
  | false => exact ⟨order, fun _ => 0, 0, horder, Nat.zero_le 4, rfl, by simp⟩
  | true =>
    obtain ⟨counts, hcounts, h⟩ := hread.counts (hnumbers hflag)
    obtain ⟨hlow, hhigh, hroom⟩ := countWidth_cases h
    refine ⟨order, (counts.getD · 0), countWidth A.graph.root (counts.getD · 0), horder, hhigh, ?_, ?_⟩
    · rw [hcounts]
      rfl
    · intro _
      exact ⟨hlow, counts, hcounts, fun s hs => ⟨h.getElem? hs, hroom s hs⟩⟩

/-- An automaton with the same shape has the same counts if there is room for them. -/
theorem restored_of_rows {A B : Automaton} {numbers : Bool} {count : State → Nat} {countWidth : Nat}
    (h : B.Readable ∧ ∃ f, A.graph.Iso B.graph f ∧ ∀ s, A.graph.Reachable s → 1 ≤ countWidth →
      count s < 256 ^ countWidth → B.storedCount (f s) = .ok (some (count s)))
    (hcounts : numbers = true → 1 ≤ countWidth ∧ ∃ counts, A.counts = .ok counts ∧
      ∀ s, A.graph.Reachable s → counts[s]? = some (count s) ∧ count s < 256 ^ countWidth) :
    A.Restored B numbers := by
  obtain ⟨hreadable, f, hiso, hstored⟩ := h
  refine ⟨hreadable, f, hiso, ?_⟩
  intro hflag
  obtain ⟨hlow, counts, hok, hcount⟩ := hcounts hflag
  refine ⟨counts, hok, ?_⟩
  intro s hs
  obtain ⟨hget, hroom⟩ := hcount s hs
  exact ⟨count s, hget, hstored s hs hlow hroom⟩

/-- An automaton whose labels are no separators is always written, with counts if it has no cycles, and its stream is
accepted. As long as the body stays below 2^32 bytes, what is read has the same shape, and the count of every state. -/
theorem script_restored (w : UniformWriter) {A : Automaton} (hread : A.Readable)
    (hnumbers : w.flags.numbers = true → A.graph.Acyclic) (hseparators : w.separatorConflict? A = .ok none) :
    ∃ script, w.script A = .ok script ∧ script.result = .ok script.bytes.length ∧
      ∃ u, Uniform.ofBytes script.bytes.toArray = .ok u ∧ u.filler = w.filler ∧ u.annotation = w.annotation ∧
        u.body.size = script.bytes.length - Uniform.bodyOffset ∧
        (u.body.size < 2 ^ 32 → A.Restored u.automaton w.flags.numbers) := by
  obtain ⟨order, count, countWidth, horder, hwidth, hscript, hcounts⟩ := w.script_eq hread hnumbers hseparators
  obtain ⟨hresult, u, hu, hfiller, hannotation, hsize, hrestored⟩ := writePlan_restored horder count hread w hwidth
  refine ⟨_, hscript, hresult, u, hu, hfiller, hannotation, hsize, ?_⟩
  intro hsmall
  exact restored_of_rows (hrestored hsmall) hcounts

theorem script_restored_built : ∃ b script u, Builder.build [[97, 99], [98, 99]] = .ok b ∧
    ({ flags := Flags.ofList [.numbers] } : UniformWriter).script b.automaton = .ok script ∧
    Uniform.ofBytes script.bytes.toArray = .ok u ∧ b.automaton.Restored u.automaton true := by
  have hrun : (do
      let b ← (Builder.build [[97, 99], [98, 99]]).toOption
      let script ← (({ flags := Flags.ofList [.numbers] } : UniformWriter).script b.automaton).toOption
      return script.bytes.length) = some 22 := by cbv
  cases hok : Builder.build [[97, 99], [98, 99]] with
  | error e => simp [hok, Except.toOption] at hrun
  | ok b =>
    obtain ⟨p, root, rfl, h⟩ := Builder.finished_of_build hok
    obtain ⟨script, hscript, -, u, hu, -, -, hsize, hrestored⟩ :=
      script_restored { flags := Flags.ofList [.numbers] } h.readable (fun _ => h.acyclic) rfl
    rw [Pool.reader] at hscript
    have hlength : script.bytes.length = 22 := by simpa [hok, hscript, Except.toOption] using hrun
    exact ⟨_, script, u, rfl, hscript, hu, hrestored (by omega)⟩

end UniformWriter

end WordAutomata
