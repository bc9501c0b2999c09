namespace WordAutomata

section

variable {α : Type}

/-- What lies in front of the first element of another kind is the same in the same list. -/
theorem append_unique {P : α → Prop} {as bs xs ys : List α} (has : ∀ a ∈ as, P a) (hbs : ∀ b ∈ bs, P b)
    (hxs : ∀ x ∈ xs.head?, ¬P x) (hys : ∀ y ∈ ys.head?, ¬P y) (h : as ++ xs = bs ++ ys) : as = bs ∧ xs = ys := by
  induction as generalizing bs with
  | nil =>
    cases bs with
    | nil => exact ⟨rfl, h⟩
    | cons b bs =>
      obtain rfl : xs = b :: (bs ++ ys) := h
      exact absurd (hbs b (by simp)) (hxs b rfl)
  | cons a as ih =>
    cases bs with
    | nil =>
      obtain rfl : a :: (as ++ xs) = ys := h
      exact absurd (has a (by simp)) (hys a rfl)
    | cons b bs =>
      obtain ⟨rfl, hrest⟩ := List.cons_eq_cons.1 h
      obtain ⟨rfl, hxy⟩ := ih (fun a ha => has a (by simp [ha])) (fun b hb => hbs b (by simp [hb])) hrest
      exact ⟨rfl, hxy⟩

variable [DecidableEq α] {c : α}

theorem notMem_of_mem_splitOn {as l : List α} (h : l ∈ as.splitOn c) : c ∉ l := by
  induction as generalizing l with
  | nil =>
    obtain rfl : l = [] := by simpa using h
    exact List.not_mem_nil
  | cons a as ih =>
    rw [List.splitOn_cons_eq_if_modifyHead] at h
    split at h
    · rcases List.mem_cons.1 h with rfl | h
      · exact List.not_mem_nil
      · exact ih h
    · rename_i ha
      cases hlines : as.splitOn c with
      | nil => exact absurd hlines (List.splitOn_ne_nil c as)
      | cons l' ls =>
        rw [hlines] at h ih
        rcases List.mem_cons.1 h with rfl | h
        · intro hmem
          rcases List.mem_cons.1 hmem with rfl | hmem
          · exact ha (beq_iff_eq.2 rfl)
          · exact ih (by simp) hmem
        · exact ih (List.mem_cons_of_mem _ h)

/-- Lines that are ended by a mark which none of them holds are found again. -/
theorem splitOn_flatMap {lines : List (List α)} (h : ∀ l ∈ lines, c ∉ l) :
    (lines.flatMap (· ++ [c])).splitOn c = lines ++ [[]] := by
  induction lines with
  | nil => simp
  | cons l lines ih =>
    obtain ⟨hl, hrest⟩ := List.forall_mem_cons.1 h
    rw [List.flatMap_cons, List.append_assoc, List.singleton_append, List.splitOn_append_cons_self_of_not_mem hl, ih hrest]
    rfl

theorem flatMap_ended_injective {ls ms : List (List α)} (hls : ∀ l ∈ ls, c ∉ l) (hms : ∀ m ∈ ms, c ∉ m)
    (h : ls.flatMap (· ++ [c]) = ms.flatMap (· ++ [c])) : ls = ms := by
  have hended : ls ++ [[]] = ms ++ [[]] := by rw [← splitOn_flatMap hls, ← splitOn_flatMap hms, h]
  exact List.append_cancel_right hended

end

/-- The decimal digits of a number. -/
def digits (n : Nat) : List Char := Nat.toDigits 10 n

theorem toList_toString (n : Nat) : (toString n).toList = digits n := by
  rw [Nat.toString_eq_ofList_toDigits, String.toList_ofList, digits]

theorem isDigit_of_mem_digits {n : Nat} {c : Char} (h : c ∈ digits n) : c.isDigit = true :=
  Nat.isDigit_of_mem_toDigits (by decide) (by decide) h

theorem isAlphanum_of_mem_digits {n : Nat} {c : Char} (h : c ∈ digits n) : c.isAlphanum = true := by
  rw [Char.isAlphanum, isDigit_of_mem_digits h, Bool.or_true]

theorem digits_ne_nil {n : Nat} : digits n ≠ [] := Nat.toDigits_ne_nil

theorem digits_injective {m n : Nat} (h : digits m = digits n) : m = n := by
  calc
    m = Nat.ofDigitChars 10 (digits m) 0 := Nat.ofDigitChars_ten_toDigits.symm
    _ = Nat.ofDigitChars 10 (digits n) 0 := by rw [h]
    _ = n := Nat.ofDigitChars_ten_toDigits

section Bytes

theorem toList_loop_eq (bs : ByteArray) (i : Nat) (before : List UInt8) :
    ByteArray.toList.loop bs i before = before.reverse ++ bs.data.toList.drop i := by
  fun_induction ByteArray.toList.loop bs i before with
  | case1 i before hi ih =>
    have hlen : i < bs.data.toList.length := hi
    have hget : bs.get! i = bs.data.toList[i] := by simp [ByteArray.get!, hi]
    rw [ih, List.drop_eq_getElem_cons hlen, hget, List.reverse_cons, List.append_assoc, List.singleton_append]
  | case2 i before hi =>
    rw [List.drop_eq_nil_of_le (Nat.le_of_not_lt hi), List.append_nil]

theorem toList_eq_data (bs : ByteArray) : bs.toList = bs.data.toList := by
  rw [ByteArray.toList, toList_loop_eq]
  rfl

theorem toUTF8_append (s t : String) : (s ++ t).toUTF8.toList = s.toUTF8.toList ++ t.toUTF8.toList := by
  simp only [toList_eq_data, String.toUTF8_eq_toByteArray, String.toByteArray_append, ByteArray.toList_data_append]

theorem toUTF8_injective {s t : String} (h : s.toUTF8.toList = t.toUTF8.toList) : s = t := by
  rw [toList_eq_data, toList_eq_data] at h
  exact String.toByteArray_inj.1 (ByteArray.ext (Array.toList_inj.1 h))

end Bytes

end WordAutomata
