import WordAutomata.Proofs.Plan
import WordAutomata.Write.Uniform

namespace WordAutomata

namespace UniformWriter

theorem marks_lt (isFinal isLast : Bool) : marks isFinal isLast < 4 := by
  cases isFinal <;> cases isLast <;> decide

/-- The lowest byte of an address above marks holds these marks. -/
theorem testBit_combine {address m i : Nat} (hm : m < 4) (hi : i < 3) :
    (UInt8.ofNat (combine address m)).toNat.testBit i = m.testBit i := by
  have hbyte : (UInt8.ofNat (combine address m)).toNat = (2 ^ 3 * address + m) % 2 ^ 8 := by
    simp [combine, Nat.mul_comm]
  rw [hbyte, Nat.testBit_mod_two_pow, Nat.testBit_two_pow_mul_add address (by omega)]
  simp [hi, show i < 8 by omega]

theorem testBit_marks (isFinal isLast : Bool) :
    (marks isFinal isLast).testBit 0 = isFinal ∧ (marks isFinal isLast).testBit 1 = isLast ∧
      (marks isFinal isLast).testBit 2 = false := by
  cases isFinal <;> cases isLast <;> decide

theorem flatMap_arcBytes_ne_nil {as : List PlacedArc} (h : PlacedArc.Run as) (width : Nat) (address : Nat → Nat)
    (place : Nat) : as.flatMap (arcBytes width address place) ≠ [] := by
  obtain ⟨a, as, rfl⟩ := List.exists_cons_of_ne_nil h.ne_nil
  rw [← List.length_pos_iff, List.flatMap_cons, List.length_append, length_arcBytes, arcSize]
  split <;> omega

theorem testBit_shortMarks (isFinal isLast : Bool) :
    (UInt8.ofNat (marks isFinal isLast + 4)).toNat.testBit 0 = isFinal ∧
      (UInt8.ofNat (marks isFinal isLast + 4)).toNat.testBit 1 = isLast ∧
      (UInt8.ofNat (marks isFinal isLast + 4)).toNat.testBit 2 = true := by
  cases isFinal <;> cases isLast <;> decide

end UniformWriter

namespace Uniform

open UniformWriter

variable {u : Uniform}

/-- What stands where an arc was written with these marks, whether with an address or without. -/
structure Shows (u : Uniform) (arc : Nat) (label : UInt8) (isFinal isLast isNext : Bool) : Prop where
  label_eq : u.body.byte arc = .ok label
  marks_eq : ∃ m, u.marks arc = .ok m ∧ m.testBit 0 = isFinal ∧ m.testBit 1 = isLast ∧ m.testBit 2 = isNext

namespace Shows

variable {arc : UInt32} {label : UInt8} {isFinal isLast isNext : Bool} (h : u.Shows arc.toNat label isFinal isLast isNext)

include h

theorem behind_eq : u.behind arc.toNat = .ok (arc.toNat + if isNext then 2 else 1 + u.addressWidth) := by
  obtain ⟨m, hm, -, -, hnext⟩ := h.marks_eq
  rw [behind, hm, ok_bind, hnext]
  cases isNext with
  | false => simp [Nat.add_assoc]
  | true => simp

theorem isFinal_eq : u.automaton.isFinal ⟨arc⟩ = .ok isFinal := by
  obtain ⟨m, hm, hfinal, -, -⟩ := h.marks_eq
  show u.isFinal ⟨arc⟩ = _
  rw [Uniform.isFinal, hm, ok_bind, hfinal]
  rfl

theorem nextArc_eq (hsmall : isLast = false → arc.toNat + (if isNext then 2 else 1 + u.addressWidth) < 2 ^ 32) :
    u.automaton.nextArc ⟨arc⟩ = .ok (if isLast then none
      else some ⟨UInt32.ofNat (arc.toNat + if isNext then 2 else 1 + u.addressWidth)⟩) := by
  obtain ⟨m, hm, -, hlast, -⟩ := h.marks_eq
  show u.nextArc ⟨arc⟩ = _
  rw [nextArc, hm, ok_bind, hlast, h.behind_eq]
  cases isLast with
  | true => rfl
  | false =>
    simp only [ok_bind]
    rw [if_pos (show _ < 1 <<< 32 from hsmall rfl)]
    rfl

theorem target_eq (hnext : isNext = true) : u.automaton.target ⟨arc⟩ =
    .ok (if UInt32.ofNat (arc.toNat + 2) = 0 then none else some ⟨UInt32.ofNat (arc.toNat + 2)⟩) := by
  have hbehind := h.behind_eq
  obtain ⟨m, hm, -, -, hbit⟩ := h.marks_eq
  show u.target ⟨arc⟩ = _
  rw [target, hm, ok_bind, hbit, hbehind, hnext]
  rfl

end Shows

theorem shows_of_short {arc : Nat} {label : UInt8} {isFinal isLast : Bool}
    (h : u.body.Holds arc [label, UInt8.ofNat (UniformWriter.marks isFinal isLast + 4)]) :
    u.Shows arc label isFinal isLast true := by
  have hmarks := Bytes.byte_eq (Bytes.holds_cons.1 h).2
  refine ⟨Bytes.byte_eq h, _, ?_, testBit_shortMarks isFinal isLast⟩
  rw [marks, hmarks]
  rfl

theorem shows_of_wide {arc address : Nat} {label : UInt8} {isFinal isLast : Bool} (hwidth : 0 < u.addressWidth)
    (h : u.body.Holds arc (wideArc u.addressWidth label (UniformWriter.marks isFinal isLast) address)) :
    u.Shows arc label isFinal isLast false := by
  obtain ⟨width, hw⟩ := Nat.exists_eq_succ_of_ne_zero (Nat.ne_of_gt hwidth)
  rw [wideArc, hw, little] at h
  have hmarks := Bytes.byte_eq (Bytes.holds_cons.1 h).2
  obtain ⟨hfinal, hlast, hnext⟩ := testBit_marks isFinal isLast
  have hlt := marks_lt isFinal isLast
  refine ⟨Bytes.byte_eq h, _, by rw [marks, hmarks]; rfl, ?_, ?_, ?_⟩
  · rw [testBit_combine hlt (by omega), hfinal]
  · rw [testBit_combine hlt (by omega), hlast]
  · rw [testBit_combine hlt (by omega), hnext]

theorem wideFits_iff {width marks address : Nat} :
    wideFits width marks address = true ↔ 8 ≤ width ∨ combine address marks < 256 ^ width := by
  rw [wideFits, Bool.or_eq_true, decide_eq_true_eq, decide_eq_true_eq, Nat.one_shiftLeft, Nat.pow_mul]

/-- The widest addresses are not checked, but those of 32 bits have room. -/
theorem combine_lt {width marks address : Nat} (hfits : wideFits width marks address = true) (hwidth : width ≤ 8)
    (hmarks : marks < 4) (hsmall : address < 2 ^ 32) : combine address marks < 256 ^ width := by
  rcases wideFits_iff.1 hfits with hwide | hroom
  · obtain rfl : width = 8 := by omega
    rw [combine]
    omega
  · exact hroom

/-- Where an address has room, its low 32 bits are read back. -/
theorem target_wide {arc : UInt32} {address : Nat} {label : UInt8} {isFinal isLast : Bool}
    (hwidth : 1 ≤ u.addressWidth ∧ u.addressWidth ≤ 8)
    (hroom : combine address (UniformWriter.marks isFinal isLast) < 256 ^ u.addressWidth)
    (h : u.body.Holds arc.toNat (wideArc u.addressWidth label (UniformWriter.marks isFinal isLast) address)) :
    u.automaton.target ⟨arc⟩ =
      .ok (if UInt32.ofNat address = 0 then none else some ⟨UInt32.ofNat address⟩) := by
  have hlt := marks_lt isFinal isLast
  obtain ⟨m, hm, -, -, hbit⟩ := (shows_of_wide (by omega) h).marks_eq
  have hdiv : combine address (UniformWriter.marks isFinal isLast) / 8 = address := by
    rw [combine]
    omega
  rw [wideArc, Bytes.holds_cons] at h
  show u.target ⟨arc⟩ = _
  rw [target, hm, ok_bind, hbit, if_neg (by decide), Bytes.littleAt_eq h.2 hwidth, Nat.mod_eq_of_lt hroom, map_ok,
    ok_bind, hdiv]
  rfl

/-- The address of an arc that has one has room. -/
def HasRoom (width : Nat) (address : Nat → Nat) (place : Nat) (a : PlacedArc) : Prop :=
  isShort place a = false → combine (a.target.elim 0 address) (UniformWriter.marks a.isFinal a.isLast) < 256 ^ width

section

variable {address : Nat → Nat} {place : Nat}

variable {arc : UInt32} {a : PlacedArc}

theorem shows_arc (hwidth : 0 < u.addressWidth)
    (h : u.body.Holds arc.toNat (arcBytes u.addressWidth address place a)) :
    u.Shows arc.toNat a.label a.isFinal a.isLast (isShort place a) := by
  rw [arcBytes] at h
  cases hshort : isShort place a with
  | true =>
    rw [if_pos hshort] at h
    exact shows_of_short h
  | false =>
    rw [hshort] at h
    exact shows_of_wide hwidth h

theorem transition_eq (hwidth : 1 ≤ u.addressWidth ∧ u.addressWidth ≤ 8)
    (hroom : HasRoom u.addressWidth address place a)
    (hnext : isShort place a = true → address (place + 1) = arc.toNat + 2)
    (h : u.body.Holds arc.toNat (arcBytes u.addressWidth address place a)) :
    u.automaton.transition ⟨arc⟩ = .ok (a.cut address) := by
  have hshows := shows_arc (by omega) h
  refine Automaton.transition_eq_ok.2 ⟨hshows.label_eq, hshows.isFinal_eq, ?_⟩
  cases hshort : isShort place a with
  | true =>
    have htarget : a.target = some (place + 1) := by
      rw [isShort, Bool.and_eq_true, beq_iff_eq] at hshort
      exact hshort.2
    rw [hshows.target_eq hshort, PlacedArc.cut, htarget, Option.elim_some, hnext hshort]
  | false =>
    rw [arcBytes, hshort] at h
    exact target_wide hwidth (hroom hshort) h

/-- The arcs of a state that ends at most at 2^32 are read back one by one, with what 32 bits hold of their addresses; one
without an address leads to what stands behind all of them. -/
theorem carries_of_holds (hwidth : 1 ≤ u.addressWidth ∧ u.addressWidth ≤ 8) {as : List PlacedArc} (hrun : PlacedArc.Run as)
    (hroom : ∀ a ∈ as, HasRoom u.addressWidth address place a)
    (hnext : ∀ a ∈ as, isShort place a = true →
      address (place + 1) = arc.toNat + (as.flatMap (arcBytes u.addressWidth address place)).length)
    (h : u.body.Holds arc.toNat (as.flatMap (arcBytes u.addressWidth address place)))
    (hsmall : arc.toNat + (as.flatMap (arcBytes u.addressWidth address place)).length ≤ 2 ^ 32) :
    u.automaton.Carries ⟨arc⟩ (as.map (PlacedArc.cut address)) := by
  induction hrun generalizing arc with
  | @last a hlast =>
    rw [List.flatMap_singleton] at h hnext
    have hshows := shows_arc (by omega) h
    have htransition := transition_eq hwidth (hroom a (by simp)) (by
      intro hshort
      rw [hnext a (by simp) hshort, length_arcBytes, arcSize, if_pos hshort]) h
    refine .last ?_ htransition
    rw [hshows.nextArc_eq (by simp [hlast]), hlast]
    rfl
  | @more a as hlast hrun ih =>
    rw [List.flatMap_cons, List.length_append] at hsmall hnext
    rw [List.flatMap_cons, Bytes.holds_append] at h
    obtain ⟨hfirst, hrest⟩ := h
    have hshort : isShort place a = false := by simp [isShort, hlast]
    have hshows := shows_arc (by omega) hfirst
    have hlength : (arcBytes u.addressWidth address place a).length = 1 + u.addressWidth := by
      rw [length_arcBytes, arcSize, hshort, if_neg (by decide)]
    have hpos := List.length_pos_iff.2 (flatMap_arcBytes_ne_nil hrun u.addressWidth address place)
    rw [hshort] at hshows
    have htransition := transition_eq hwidth (hroom a (by simp)) (by simp [hshort]) hfirst
    have hadd : (UInt32.ofNat (arc.toNat + (1 + u.addressWidth))).toNat = arc.toNat + (1 + u.addressWidth) :=
      UInt32.toNat_ofNat_of_lt' (show arc.toNat + (1 + u.addressWidth) < 2 ^ 32 by omega)
    have hnextArc := hshows.nextArc_eq fun _ => by
      rw [if_neg (by decide)]
      omega
    rw [hlast, if_neg (by decide), if_neg (by decide)] at hnextArc
    refine .more hnextArc htransition (ih ?_ ?_ ?_ ?_)
    · intro b hb
      exact hroom b (List.mem_cons_of_mem a hb)
    · intro b hb hs
      rw [hnext b (List.mem_cons_of_mem a hb) hs, hadd, hlength]
      omega
    · rw [hadd, ← hlength]
      exact hrest
    · rw [hadd]
      omega

end

end Uniform

end WordAutomata
