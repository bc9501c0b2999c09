import WordAutomata.Proofs.Root

namespace WordAutomata.Uniform

/-- A stream whose first eight bytes are sound: the magic, the version, the two separators and the two widths. -/
def headed (filler annotation widths : UInt8) (body : List UInt8) : Bytes :=
  (magic ++ [version, filler, annotation, widths] ++ body).toArray

/-- Enough of a body is there for widths of counts and addresses. The arc that leads to the root stands behind two counts
and the dummy state. -/
def LongEnough (countWidth addressWidth : Nat) (body : List UInt8) : Prop :=
  let arc := 2 * countWidth + 1 + addressWidth
  arc + 2 ≤ body.length ∧
    ∀ m, body[arc + 1]? = some m → m.toNat.testBit 2 = false → arc + 1 + addressWidth ≤ body.length

section

variable {filler annotation widths : UInt8} {body : List UInt8}

theorem parse_headed : Header.parse (headed filler annotation widths body) = .ok ⟨version⟩ := by
  rw [headed, List.append_assoc]
  exact Header.parse_toBytes version _

theorem bodyOffset_le_size : bodyOffset ≤ (headed filler annotation widths body).size := by
  simp [headed, magic, bodyOffset, Header.size]

theorem opened_headed : opened (headed filler annotation widths body) bodyOffset_le_size =
    ⟨filler, annotation, widths.toNat / 16, widths.toNat % 16, body.toArray⟩ := by
  simp [opened, headed, magic, bodyOffset, Header.size]

theorem entered_iff {countWidth addressWidth : Nat} :
    Entered ⟨filler, annotation, countWidth, addressWidth, body.toArray⟩ ↔ LongEnough countWidth addressWidth body := by
  have harc : epsilon ⟨filler, annotation, countWidth, addressWidth, body.toArray⟩ + countWidth =
      2 * countWidth + 1 + addressWidth := by
    show countWidth + 1 + addressWidth + countWidth = _
    omega
  simp only [Entered, LongEnough, harc, List.getElem?_toArray, List.size_toArray]
  constructor
  · rintro ⟨m, hm, hwide⟩
    obtain ⟨hlt, -⟩ := List.getElem?_eq_some_iff.1 hm
    refine ⟨hlt, ?_⟩
    intro m' hm'
    obtain rfl := Option.some.inj (hm.symm.trans hm')
    exact hwide
  · rintro ⟨hlt, hwide⟩
    exact ⟨_, List.getElem?_eq_getElem hlt, hwide _ (List.getElem?_eq_getElem hlt)⟩

end

/-- Behind a sound head a body is accepted if and only if it holds the dummy state and the whole arc that leads to the root;
otherwise the stream counts as cut short. The root of what is accepted is where this arc goes, for which no byte behind the body
is asked. -/
theorem ofBytes_headed {widths : UInt8} {countWidth addressWidth : Nat}
    (hwidths : widths.toNat = 16 * countWidth + addressWidth) (haddress : 1 ≤ addressWidth ∧ addressWidth ≤ 8)
    (hcount : countWidth ≤ 4) (filler annotation : UInt8) (body : List UInt8) :
    let u : Uniform := ⟨filler, annotation, countWidth, addressWidth, body.toArray⟩
    (LongEnough countWidth addressWidth body → ofBytes (headed filler annotation widths body) = .ok u) ∧
    (¬LongEnough countWidth addressWidth body → ofBytes (headed filler annotation widths body) = .error .truncated) ∧
    ∀ u', ofBytes (headed filler annotation widths body) = .ok u' → u' = u ∧
      u'.automaton.root = .ok (if UInt32.ofNat u.entrance = 0 then none else some ⟨UInt32.ofNat u.entrance⟩) := by
  intro u
  have hopened : opened (headed filler annotation widths body) bodyOffset_le_size = u := by
    rw [opened_headed, hwidths, show (16 * countWidth + addressWidth) / 16 = countWidth by omega,
      show (16 * countWidth + addressWidth) % 16 = addressWidth by omega]
  have hcheck : ofBytes (headed filler annotation widths body) = u.check := by
    rw [ofBytes_step, parse_headed, ok_bind, if_neg (not_not_intro rfl), dif_pos bodyOffset_le_size, hopened]
  have hwide : ¬(u.addressWidth = 0 ∨ 8 < u.addressWidth) := by
    show ¬(addressWidth = 0 ∨ 8 < addressWidth)
    omega
  rw [hcheck, check, if_neg hwide, if_neg (Nat.not_lt_of_le hcount)]
  refine ⟨?_, ?_, ?_⟩
  · intro hlong
    rw [if_pos (isComplete_iff_entered.2 (entered_iff.2 hlong))]
  · intro hshort
    rw [if_neg]
    rwa [isComplete_iff_entered, entered_iff]
  · intro u' h
    split at h
    · rename_i hcomplete
      obtain rfl := Except.ok.inj h
      exact ⟨rfl, root_eq haddress.1 haddress.2 hcount (isComplete_iff_entered.1 hcomplete)⟩
    · cases h

/-- Two counts of one byte and addresses of two: an arc with the address 8 at the place 5, and the same cut by one byte. -/
theorem ofBytes_headed_cut : ∃ u, ofBytes (headed 95 43 0x12 [0, 0, 0, 0, 0, 94, 66, 0]) = .ok u ∧
    u.automaton.root = .ok (some ⟨8⟩) ∧ ofBytes (headed 95 43 0x12 [0, 0, 0, 0, 0, 94, 66]) = .error .truncated := by
  have hwidths : (0x12 : UInt8).toNat = 16 * 1 + 2 := rfl
  obtain ⟨hlong, -, hroot⟩ := ofBytes_headed hwidths (by decide) (by decide) 95 43 [0, 0, 0, 0, 0, 94, 66, 0]
  obtain ⟨-, hshort, -⟩ := ofBytes_headed hwidths (by decide) (by decide) 95 43 [0, 0, 0, 0, 0, 94, 66]
  have hok := hlong (by simp [LongEnough])
  have hwide : Nat.testBit 66 2 = false := by decide
  exact ⟨_, hok, (hroot _ hok).2, hshort (by simp [LongEnough, hwide])⟩

end WordAutomata.Uniform
