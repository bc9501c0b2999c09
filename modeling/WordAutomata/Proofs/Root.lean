import WordAutomata.Proofs.Checks
import WordAutomata.Proofs.VCode

namespace WordAutomata

/-- A question that is answered, or else asks for a byte behind the buffer. -/
def OnlyShort {α : Type} (size : Nat) (x : Read α) : Prop := ∀ f, x = .error f → ∃ p, size ≤ p ∧ f = .outsideBuffer p

namespace OnlyShort

variable {α β : Type} {size : Nat}

theorem ok (a : α) : OnlyShort size (.ok a : Read α) := fun _ h => nomatch h

theorem bind {x : Read α} {g : α → Read β} (hx : OnlyShort size x) (hg : ∀ a, x = .ok a → OnlyShort size (g a)) :
    OnlyShort size (x >>= g) := by
  intro f h
  cases x with
  | error f' => exact hx f (congrArg Except.error (Except.error.inj h))
  | ok a => exact hg a rfl f h

theorem byte (data : Bytes) (i : Nat) : OnlyShort data.size (data.byte i) := by
  intro f h
  rw [Bytes.byte] at h
  split at h
  · cases h
  · exact ⟨i, by omega, (Except.error.inj h).symm⟩

theorem codeAt (data : Bytes) (i : Nat) : OnlyShort data.size (VCode.codeAt data i) := by
  fun_induction VCode.codeAt data i with
  | case1 i hi hcontinues ih => exact ih.bind fun bs _ => ok _
  | case2 i hi hlast => exact ok _
  | case3 i hi =>
    intro f h
    exact ⟨i, by omega, (Except.error.inj h).symm⟩

theorem skip (data : Bytes) (i : Nat) : OnlyShort data.size (VCode.skip data i) :=
  (codeAt data i).bind fun _ _ => ok _

end OnlyShort

namespace Uniform

/-- The arc that leads to the root is there, with its address unless its target comes next. The mark that says so has to be
there first. -/
def Entered (u : Uniform) : Prop :=
  ∃ m, u.body[u.epsilon + u.countWidth + 1]? = some m ∧
    (m.toNat.testBit 2 = false → u.epsilon + u.countWidth + 1 + u.addressWidth ≤ u.body.size)

/-- Where the arc that leads to the root goes: right behind it, or to the address above its marks. -/
def entrance (u : Uniform) : Nat :=
  let arc := u.epsilon + u.countWidth
  if u.body[arc + 1]?.any (·.toNat.testBit 2) then arc + 2
  else ofLittle ((u.body.toList.drop (arc + 1)).take u.addressWidth) / 8

variable {u : Uniform}

theorem marks_eq_ok {arc m : Nat} : u.marks arc = .ok m ↔ ∃ b, u.body[arc + 1]? = some b ∧ b.toNat = m := by
  rw [marks, Bytes.byte]
  by_cases h : arc + 1 < u.body.size <;> simp [h]

theorem isComplete_iff_entered : u.isComplete = true ↔ u.Entered := by
  rw [isComplete_iff, Entered]
  constructor
  · rintro ⟨position, hbehind, hle⟩
    obtain ⟨m, hm, hposition⟩ := bind_eq_ok.1 hbehind
    obtain ⟨b, hb, rfl⟩ := marks_eq_ok.1 hm
    refine ⟨b, hb, fun hwide => ?_⟩
    rw [hwide] at hposition
    rw [← Except.ok.inj hposition] at hle
    exact hle
  · rintro ⟨b, hb, hwide⟩
    obtain ⟨hlt, -⟩ := Array.getElem?_eq_some_iff.1 hb
    rw [behind, marks_eq_ok.2 ⟨b, hb, rfl⟩, ok_bind]
    refine ⟨_, rfl, ?_⟩
    split
    · omega
    · rename_i hnext
      exact hwide (by simpa using hnext)

/-- What has been found sound when a stream is accepted. -/
theorem check_sound {data : Bytes} (h : ofBytes data = .ok u) :
    1 ≤ u.addressWidth ∧ u.addressWidth ≤ 8 ∧ u.countWidth ≤ 4 ∧ u.Entered := by
  rw [ofBytes_step] at h
  obtain ⟨header, -, h⟩ := bind_eq_ok.1 h
  split at h
  · cases h
  split at h
  · rw [check] at h
    split at h
    · cases h
    split at h
    · cases h
    split at h
    · rename_i hcomplete
      obtain rfl := Except.ok.inj h
      exact ⟨by omega, by omega, by omega, isComplete_iff_entered.1 hcomplete⟩
    · cases h
  · cases h

/-- Everything that the root depends on is there. -/
theorem root_eq (hlow : 1 ≤ u.addressWidth) (hhigh : u.addressWidth ≤ 8) (hcount : u.countWidth ≤ 4) (h : u.Entered) :
    u.automaton.root =
      .ok (if UInt32.ofNat u.entrance = 0 then none else some ⟨UInt32.ofNat u.entrance⟩) := by
  have hepsilon : u.epsilon = u.countWidth + 1 + u.addressWidth := rfl
  have hstate : (UInt32.ofNat u.epsilon).toNat = u.epsilon := UInt32.toNat_ofNat_of_lt' (show u.epsilon < 2 ^ 32 by omega)
  have harc : (UInt32.ofNat (u.epsilon + u.countWidth)).toNat = u.epsilon + u.countWidth :=
    UInt32.toNat_ofNat_of_lt' (show u.epsilon + u.countWidth < 2 ^ 32 by omega)
  have hroot : u.automaton.root = u.target ⟨UInt32.ofNat (u.epsilon + u.countWidth)⟩ := by
    show u.target ⟨UInt32.ofNat ((UInt32.ofNat u.epsilon).toNat + u.countWidth)⟩ = _
    rw [hstate]
  obtain ⟨b, hb, hwide⟩ := h
  have hmarks := marks_eq_ok.2 ⟨b, hb, rfl⟩
  have haddress : (if b.toNat.testBit 2 then u.behind (u.epsilon + u.countWidth)
      else (· / 8) <$> u.body.littleAt (u.epsilon + u.countWidth + 1) u.addressWidth) = .ok u.entrance := by
    rw [entrance, hb, Option.any_some]
    cases hnext : b.toNat.testBit 2 with
    | true =>
      rw [if_pos rfl, if_pos rfl, behind, hmarks, ok_bind, hnext]
      rfl
    | false =>
      rw [if_neg (by decide), if_neg (by decide), Bytes.littleAt, Bytes.span, if_pos (hwide hnext), ok_bind,
        if_pos ⟨hlow, hhigh⟩, pure_eq_ok, map_ok, Array.toList_extract, List.extract_eq_take_drop, Nat.add_sub_cancel_left]
  rw [hroot, target_step, harc, hmarks, ok_bind, haddress]
  rfl

/-- The root of an accepted stream can always be read. -/
theorem root_total {data : Bytes} (h : ofBytes data = .ok u) : ∃ r, u.automaton.root = .ok r := by
  obtain ⟨hlow, hhigh, hcount, hentered⟩ := check_sound h
  exact ⟨_, root_eq hlow hhigh hcount hentered⟩

end Uniform

namespace Compact

variable {c : Compact}

theorem marks_onlyShort (c : Compact) (arc : Nat) : OnlyShort c.body.size (c.marks arc) :=
  (OnlyShort.byte c.body arc).bind fun _ _ => .ok _

theorem behind_onlyShort (c : Compact) (arc : Nat) : OnlyShort c.body.size (c.behind arc) := by
  refine (c.marks_onlyShort arc).bind fun m _ => ?_
  split
  · exact .ok _
  · exact .skip _ _

theorem behindState_onlyShort (c : Compact) (arc : Nat) : OnlyShort c.body.size (c.behindState arc) := by
  induction hn : c.body.size - arc using Nat.strongRecOn generalizing arc with
  | ind n ih =>
    rw [behindState_step]
    refine (c.marks_onlyShort arc).bind fun m _ => ?_
    split
    · exact c.behind_onlyShort arc
    · refine (c.behind_onlyShort arc).bind fun next hnext => ?_
      have hgt := behind_gt hnext
      have hlt := lt_size_of_behind hnext
      exact ih (c.body.size - next) (by omega) next rfl

theorem firstArc_of_epsilonArc {arc : Nat} (h : c.epsilonArc = .ok arc) :
    c.automaton.firstArc c.automaton.epsilon = .ok ⟨UInt32.ofNat arc⟩ ∧ arc ≤ VCode.maxLength := by
  show c.firstArc ⟨0⟩ = _ ∧ _
  rw [epsilonArc] at h
  rw [firstArc]
  by_cases hnumbers : c.flags.numbers
  · rw [if_pos hnumbers] at h ⊢
    cases hdecode : VCode.decode c.body 0 with
    | error e => simp [hdecode] at h
    | ok code =>
      obtain ⟨-, hskip, hle⟩ := VCode.decode_sound hdecode
      obtain rfl : code.2 = arc := by simpa [hdecode] using h
      rw [Nat.zero_add] at hskip
      refine ⟨?_, hle⟩
      show (do return Arc.mk (UInt32.ofNat (← VCode.skip c.body 0))) = _
      rw [hskip]
      rfl
  · rw [if_neg hnumbers] at h ⊢
    obtain rfl := Except.ok.inj h
    exact ⟨rfl, Nat.zero_le _⟩

/-- What has been found sound of the first state: its arc, with the address if it has one. -/
theorem checkEpsilon_sound (h : c.checkEpsilon = .ok ()) : ∃ arc m, c.automaton.firstArc c.automaton.epsilon = .ok arc ∧
    c.marks arc.offset.toNat = .ok m ∧
    (m.testBit 7 = false → ∃ n, VCode.valueAt c.body (arc.offset.toNat + addressOffset m) = .ok n) := by
  rw [checkEpsilon_step] at h
  obtain ⟨arc, harc, h⟩ := bind_eq_ok.1 h
  obtain ⟨hfirst, hle⟩ := firstArc_of_epsilonArc harc
  have hnat : (UInt32.ofNat arc).toNat = arc := by
    rw [VCode.maxLength] at hle
    exact UInt32.toNat_ofNat_of_lt' (show arc < 2 ^ 32 by omega)
  split at h
  · cases h
  · rename_i b hb
    obtain ⟨hlt, hget⟩ := Array.getElem?_eq_some_iff.1 hb
    have hmarks : c.marks arc = .ok b.toNat := by
      rw [marks, Bytes.byte, dif_pos hlt, hget]
      rfl
    refine ⟨⟨UInt32.ofNat arc⟩, b.toNat, hfirst, by rw [hnat, hmarks], ?_⟩
    intro hnext
    rw [checkAddress, hnext, if_neg (by decide)] at h
    rw [hnat]
    cases hcode : VCode.decode c.body (arc + addressOffset b.toNat) with
    | error e => simp [hcode] at h
    | ok code => exact ⟨_, (VCode.decode_sound hcode).1⟩

theorem checkEpsilon_of_ofBytes {data : Bytes} (h : ofBytes data = .ok c) : c.checkEpsilon = .ok () := by
  rw [ofBytes_step] at h
  obtain ⟨header, -, h⟩ := bind_eq_ok.1 h
  split at h
  · cases h
  split at h
  · split at h
    · cases h
    split at h
    · cases h
    obtain ⟨_, hcheck, h⟩ := bind_eq_ok.1 h
    rw [← Except.ok.inj h]
    exact hcheck
  · cases h

/-- The root of an accepted stream can be read unless the arc that leads to it is marked to have its target behind the state
but not to be the last arc. What may fail then is the search for the last arc, behind the end of the buffer. -/
theorem ofBytes_root {data : Bytes} (h : ofBytes data = .ok c) :
    ∃ arc m, c.automaton.firstArc c.automaton.epsilon = .ok arc ∧ c.marks arc.offset.toNat = .ok m ∧
      ∀ f, c.automaton.root = .error f →
        m.testBit 7 = true ∧ m.testBit 6 = false ∧ ∃ p, c.body.size ≤ p ∧ f = .outsideBuffer p := by
  obtain ⟨arc, m, hfirst, hmarks, haddress⟩ := checkEpsilon_sound (checkEpsilon_of_ofBytes h)
  refine ⟨arc, m, hfirst, hmarks, ?_⟩
  intro f hf
  have hroot : c.automaton.root = c.target arc := by
    show (do c.automaton.target (← c.automaton.firstArc c.automaton.epsilon)) = _
    rw [hfirst]
    rfl
  rw [hroot, target_step, hmarks, ok_bind] at hf
  cases hnext : m.testBit 7 with
  | false =>
    obtain ⟨n, hn⟩ := haddress hnext
    rw [hnext, if_neg (by decide), hn, ok_bind] at hf
    cases hf
  | true =>
    rw [hnext, if_pos rfl] at hf
    cases hlast : m.testBit 6 with
    | true =>
      have hbehind : c.behindState arc.offset.toNat = .ok (arc.offset.toNat + addressOffset m) := by
        rw [behindState_step, hmarks, ok_bind, if_pos hlast, behind, hmarks, ok_bind, if_pos hnext]
        rfl
      rw [hbehind, map_ok, ok_bind] at hf
      cases hf
    | false =>
      refine ⟨rfl, rfl, ?_⟩
      cases hbehind : c.behindState arc.offset.toNat with
      | ok n =>
        rw [hbehind, map_ok, ok_bind] at hf
        cases hf
      | error f' =>
        rw [hbehind, map_error, error_bind] at hf
        obtain rfl := Except.error.inj hf
        exact c.behindState_onlyShort arc.offset.toNat f' hbehind

/-- One byte of marks for a body: the last arc is looked for behind it. -/
theorem ofBytes_root_unended : ∃ c, ofBytes #[0x5c, 0x66, 0x73, 0x61, 0xc6, 0, 0, 0, 0x80] = .ok c ∧
    c.automaton.root = .error (.outsideBuffer 2) ∧ c.body.size = 1 ∧ ∃ arc m,
      c.automaton.firstArc c.automaton.epsilon = .ok arc ∧ c.marks arc.offset.toNat = .ok m ∧
      m.testBit 7 = true ∧ m.testBit 6 = false := by
  have hrun : (do
      let c ← (ofBytes #[0x5c, 0x66, 0x73, 0x61, 0xc6, 0, 0, 0, 0x80]).toOption
      return (c.automaton.root, c.body.size)) = some (.error (.outsideBuffer 2), 1) := by cbv
  simp only [Option.bind_eq_bind, Option.bind_eq_some_iff, toOption_eq_some, Option.pure_def, Option.some.injEq,
    Prod.mk.injEq] at hrun
  obtain ⟨c, hc, hroot, hsize⟩ := hrun
  obtain ⟨arc, m, hfirst, hmarks, hcases⟩ := ofBytes_root hc
  obtain ⟨hnext, hlast, -⟩ := hcases _ hroot
  exact ⟨c, hc, hroot, hsize, arc, m, hfirst, hmarks, hnext, hlast⟩

end Compact

end WordAutomata
