import WordAutomata.Proofs.Reading

namespace WordAutomata

namespace VCode

theorem continues_last {n : Nat} (h : n < 128) : continues (UInt8.ofNat n) = false := by
  rw [continues, UInt8.toNat_ofNat']
  simp only [decide_eq_false_iff_not]
  omega

theorem continues_more (n : Nat) : continues (UInt8.ofNat (128 + n % 128)) = true := by
  rw [continues, UInt8.toNat_ofNat']
  simp only [decide_eq_true_eq]
  omega

theorem code_ne_nil (n : Nat) : code n ≠ [] := by
  rw [code]
  split <;> simp

theorem value_code (n : Nat) : value (code n) = n := by
  fun_induction code n with
  | case1 n hlt =>
    rw [value, value, UInt8.toNat_ofNat']
    omega
  | case2 n hge ih =>
    rw [value, ih, UInt8.toNat_ofNat']
    omega

theorem length_code_le {n k : Nat} (h : n < 128 ^ (k + 1)) : (code n).length ≤ k + 1 := by
  induction k generalizing n with
  | zero =>
    rw [code, if_pos (by omega)]
    simp
  | succ k ih =>
    rw [code]
    split
    · simp
    · rw [Nat.pow_succ] at h
      have := ih (Nat.div_lt_of_lt_mul (by rwa [Nat.mul_comm]) : n / 128 < 128 ^ (k + 1))
      rw [List.length_cons]
      omega

theorem length_code_le_maxLength {n : Nat} (h : n < 2 ^ 32) : (code n).length ≤ maxLength :=
  length_code_le (k := 4) (by omega)

theorem check_eq {n : Nat} (h : n < 2 ^ 32) : check n = .ok n := by
  have hle : (n : Int) ≤ maxValue := by
    show (n : Int) ≤ ((1 <<< 32 - 1 : Nat) : Int)
    omega
  rw [check, if_pos ⟨Int.natCast_nonneg n, hle⟩, Int.toNat_natCast]

theorem encode_eq {n : Nat} (h : n < 2 ^ 32) : encode n = .ok (code n) := by
  rw [encode, check_eq h]
  rfl

theorem split_code (n : Nat) (rest : List UInt8) : split (code n ++ rest) = some (code n) := by
  fun_induction code n with
  | case1 n hlt => rw [List.singleton_append, split, continues_last hlt, if_neg (by decide)]
  | case2 n hge ih => rw [List.cons_append, split, continues_more, if_pos rfl, ih, Option.map_some]

/-- A code that stands at a place is what is read there. -/
theorem codeAt_of_split {data : Bytes} {i : Nat} {window bs : List UInt8} (h : data.Holds i window)
    (hsplit : split window = some bs) : codeAt data i = .ok bs ∧ bs.length ≤ window.length := by
  fun_induction split window generalizing i bs with
  | case1 => cases hsplit
  | case2 b window hcontinues ih =>
    obtain ⟨cs, hcs, rfl⟩ := Option.map_eq_some_iff.1 hsplit
    obtain ⟨hi, hb⟩ := Array.getElem?_eq_some_iff.1 h.getElem?
    obtain ⟨hcode, hlength⟩ := ih (Bytes.holds_cons.1 h).2 hcs
    refine ⟨?_, Nat.succ_le_succ hlength⟩
    rw [codeAt, dif_pos hi, hb, if_pos hcontinues, hcode]
    rfl
  | case3 b window hlast =>
    obtain rfl := Option.some.inj hsplit
    obtain ⟨hi, hb⟩ := Array.getElem?_eq_some_iff.1 h.getElem?
    refine ⟨?_, Nat.succ_le_succ (Nat.zero_le _)⟩
    rw [codeAt, dif_pos hi, hb, if_neg hlast]
    rfl

section

variable {data : Bytes} {i n : Nat} (h : data.Holds i (code n))

include h

theorem codeAt_eq : codeAt data i = .ok (code n) := by
  have hsplit := split_code n []
  rw [List.append_nil] at hsplit
  exact (codeAt_of_split h hsplit).1

theorem skip_eq : skip data i = .ok (i + (code n).length) := by
  rw [skip, codeAt_eq h]
  rfl

theorem valueAt_eq (hn : n < 2 ^ 32) : valueAt data i = .ok (UInt32.ofNat n) := by
  rw [valueAt, codeAt_eq h, ok_bind, if_pos (length_code_le_maxLength hn), value_code]
  rfl

theorem decode_eq (hn : n < 2 ^ 32) : decode data i = .ok (n, (code n).length) := by
  obtain ⟨rest, hrest⟩ := h
  have hwindow : (data.extract i (i + maxLength)).toList =
      code n ++ rest.take (maxLength - (code n).length) := by
    rw [Array.toList_extract, List.extract_eq_take_drop, ← hrest, Nat.add_sub_cancel_left, List.take_append,
      List.take_of_length_le (length_code_le_maxLength hn)]
  have hvalue : n ≤ maxValue := by
    rw [maxValue]
    omega
  rw [decode, hwindow, split_code]
  simp only [value_code]
  rw [if_pos hvalue]

end

/-- A code that has been checked can be read and skipped without a check. -/
theorem decode_sound {data : Bytes} {i n length : Nat} (h : decode data i = .ok (n, length)) :
    valueAt data i = .ok (UInt32.ofNat n) ∧ skip data i = .ok (i + length) ∧ length ≤ maxLength := by
  have hwindow : data.Holds i (data.extract i (i + maxLength)).toList := by
    rw [Bytes.Holds, Array.toList_extract, List.extract_eq_take_drop]
    exact List.take_prefix _ _
  have hlength : (data.extract i (i + maxLength)).toList.length ≤ maxLength := by
    rw [Array.length_toList, Array.size_extract]
    omega
  rw [decode] at h
  split at h
  · rename_i bs hsplit
    obtain ⟨hcode, hle⟩ := codeAt_of_split hwindow hsplit
    split at h
    · obtain ⟨rfl, rfl⟩ := Prod.mk.inj (Except.ok.inj h)
      refine ⟨?_, ?_, Nat.le_trans hle hlength⟩
      · rw [valueAt, hcode, ok_bind, if_pos (Nat.le_trans hle hlength)]
        rfl
      · rw [skip, hcode]
        rfl
    · cases h
  · split at h <;> cases h

end VCode

end WordAutomata
