import Mathlib.Data.Nat.Digits.Defs
import WordAutomata.Proofs.VCode

namespace WordAutomata.VCode

theorem continues_iff {b : UInt8} : continues b = true ↔ 128 ≤ b.toNat := decide_eq_true_iff

/-- Bytes with the high bit and a last one without it. -/
def IsCode (bs : List UInt8) : Prop :=
  ∃ more last, bs = more ++ [last] ∧ (∀ b ∈ more, 128 ≤ b.toNat) ∧ last.toNat < 128

theorem IsCode.ne_nil {bs : List UInt8} (h : IsCode bs) : bs ≠ [] := by
  obtain ⟨more, last, rfl, -, -⟩ := h
  simp

theorem isCode_cons {b : UInt8} {bs : List UInt8} :
    IsCode (b :: bs) ↔ b.toNat < 128 ∧ bs = [] ∨ 128 ≤ b.toNat ∧ IsCode bs := by
  constructor
  · rintro ⟨more, last, heq, hmore, hlast⟩
    cases more with
    | nil =>
      obtain ⟨rfl, rfl⟩ := List.cons_eq_cons.1 heq
      exact .inl ⟨hlast, rfl⟩
    | cons c more =>
      obtain ⟨rfl, rfl⟩ := List.cons_eq_cons.1 heq
      exact .inr ⟨hmore b (by simp), more, last, rfl, fun c hc => hmore c (by simp [hc]), hlast⟩
  · rintro (⟨hlast, rfl⟩ | ⟨hb, more, last, rfl, hmore, hlast⟩)
    · exact ⟨[], b, rfl, by simp, hlast⟩
    · exact ⟨b :: more, last, rfl, List.forall_mem_cons.2 ⟨hb, hmore⟩, hlast⟩

/-- A run is cut off at the end of the code that it begins with. -/
theorem split_eq_some {window bs : List UInt8} : split window = some bs ↔ bs <+: window ∧ IsCode bs := by
  fun_induction split window generalizing bs with
  | case1 =>
    constructor
    · intro h
      cases h
    · rintro ⟨hbegins, hcode⟩
      exact absurd (List.prefix_nil.1 hbegins) hcode.ne_nil
  | case2 b window hcontinues ih =>
    rw [Option.map_eq_some_iff]
    constructor
    · rintro ⟨cs, hcs, rfl⟩
      obtain ⟨hbegins, hcode⟩ := ih.1 hcs
      exact ⟨(List.prefix_cons_inj b).2 hbegins, isCode_cons.2 (.inr ⟨continues_iff.1 hcontinues, hcode⟩)⟩
    · rintro ⟨hbegins, hcode⟩
      obtain ⟨c, cs, rfl⟩ := List.exists_cons_of_ne_nil hcode.ne_nil
      obtain ⟨rfl, hrest⟩ := List.cons_prefix_cons.1 hbegins
      have hc := continues_iff.1 hcontinues
      rcases isCode_cons.1 hcode with ⟨hlast, -⟩ | ⟨-, hcode⟩
      · omega
      · exact ⟨cs, ih.2 ⟨hrest, hcode⟩, rfl⟩
  | case3 b window hlast =>
    rw [continues_iff, Nat.not_le] at hlast
    rw [Option.some.injEq]
    constructor
    · rintro rfl
      exact ⟨(List.prefix_cons_inj b).2 List.nil_prefix, isCode_cons.2 (.inl ⟨hlast, rfl⟩)⟩
    · rintro ⟨hbegins, hcode⟩
      obtain ⟨c, cs, rfl⟩ := List.exists_cons_of_ne_nil hcode.ne_nil
      obtain ⟨rfl, -⟩ := List.cons_prefix_cons.1 hbegins
      rcases isCode_cons.1 hcode with ⟨-, rfl⟩ | ⟨hmore, -⟩
      · rfl
      · omega

theorem split_eq_none {window : List UInt8} : split window = none ↔ ∀ b ∈ window, 128 ≤ b.toNat := by
  fun_induction split window with
  | case1 => simp
  | case2 b window hcontinues ih =>
    rw [Option.map_eq_none_iff, ih, List.forall_mem_cons]
    exact (and_iff_right (continues_iff.1 hcontinues)).symm
  | case3 b window hlast =>
    rw [continues_iff] at hlast
    simp [hlast]

theorem value_eq_ofDigits (bs : List UInt8) : value bs = Nat.ofDigits 128 (bs.map fun b => b.toNat % 128) := by
  induction bs with
  | nil => rfl
  | cons b bs ih => rw [value, ih, List.map_cons, Nat.ofDigits_cons]

/-- Of the codes of a number, every other one is longer. -/
theorem length_code_lt {bs : List UInt8} (h : IsCode bs) (hne : bs ≠ code (value bs)) :
    (code (value bs)).length < bs.length := by
  induction bs with
  | nil => exact absurd rfl h.ne_nil
  | cons b bs ih =>
    rcases isCode_cons.1 h with ⟨hlast, rfl⟩ | ⟨hmore, hcode⟩
    · have hvalue : value [b] = b.toNat := by
        rw [value, value]
        omega
      have hcode : code b.toNat = [b] := by rw [code, if_pos hlast, UInt8.ofNat_toNat]
      rw [hvalue, hcode] at hne
      exact absurd rfl hne
    · by_cases hzero : value bs = 0
      · -- The groups behind the first one are empty, and the number is short of them.
        have hpos := List.length_pos_iff.2 hcode.ne_nil
        rw [value, hzero, code, if_pos (by omega)]
        exact Nat.succ_lt_succ hpos
      · have hlt := b.toNat_lt
        have hgroup : 128 + value (b :: bs) % 128 = b.toNat := by
          rw [value]
          omega
        have hrest : value (b :: bs) / 128 = value bs := by
          rw [value]
          omega
        have hlong : ¬value (b :: bs) < 128 := by omega
        have hcons : code (value (b :: bs)) = b :: code (value bs) := by
          rw [code, if_neg hlong, hgroup, hrest, UInt8.ofNat_toNat]
        rw [hcons] at hne ⊢
        apply Nat.succ_lt_succ
        apply ih hcode
        rintro heq
        exact hne (congrArg (b :: ·) heq)

theorem push_eq (n : Nat) (out : Bytes) : push n out = out ++ code n := by
  apply Array.toList_inj.1
  fun_induction push n out with
  | case1 n out hlt => simp [code, hlt]
  | case2 n out hge ih =>
    rw [ih, code.eq_def n, if_neg hge]
    simp

theorem groups_eq (n : Nat) : groups n = (code n).length := by
  fun_induction groups n with
  | case1 n hlt => rw [code, if_pos hlt, List.length_singleton]
  | case2 n hge ih => rw [code, if_neg hge, List.length_cons, ih]

theorem check_eq_error {v : Int} (h : ¬(0 ≤ v ∧ v ≤ 2 ^ 32 - 1)) : check v = .error ⟨v⟩ := by
  have hmax : (maxValue : Int) = 2 ^ 32 - 1 := rfl
  rw [check, hmax, if_neg h]

section

variable {n : Nat} (h : n < 2 ^ 32)

include h

theorem append_eq (out : Bytes) : append n out = (.ok (code n).length, out ++ code n) := by
  have hgrown : (out ++ code n).size - out.size = (code n).length := by
    rw [← Array.length_toList, Array.toList_appendList, List.length_append, Array.length_toList, Nat.add_sub_cancel_left]
  simp only [append, check_eq h, push_eq, hgrown]

theorem encodedLength_eq : encodedLength n = .ok (code n).length := by
  rw [encodedLength, check_eq h, ok_bind, groups_eq]
  rfl

end

/-- What reading the code at a position may come to. -/
inductive Decoded (data : Bytes) (i : Nat) : Except StreamError (Nat × Nat) → Prop
  /-- A code of at most five bytes, of a number that fits in 32 bits. -/
  | number {bs : List UInt8} (hholds : data.Holds i bs) (hcode : IsCode bs) (hlength : bs.length ≤ 5)
      (hfits : Nat.ofDigits 128 (bs.map fun b => b.toNat % 128) ≤ 2 ^ 32 - 1) :
    Decoded data i (.ok (Nat.ofDigits 128 (bs.map fun b => b.toNat % 128), bs.length))
  | large {bs : List UInt8} (hholds : data.Holds i bs) (hcode : IsCode bs) (hlength : bs.length ≤ 5)
      (hlarge : 2 ^ 32 - 1 < Nat.ofDigits 128 (bs.map fun b => b.toNat % 128)) :
    Decoded data i (.error (.malformed (.largeCode i)))
  /-- The bytes end, with less than five of them left, before a code does. -/
  | truncated (hshort : (data.toList.drop i).length < 5) (hmore : ∀ b ∈ data.toList.drop i, 128 ≤ b.toNat) :
    Decoded data i (.error .truncated)
  | long (hlong : 5 ≤ (data.toList.drop i).length) (hmore : ∀ b ∈ (data.toList.drop i).take 5, 128 ≤ b.toNat) :
    Decoded data i (.error (.malformed (.longCode i)))

theorem window_eq (data : Bytes) (i : Nat) :
    (data.extract i (i + maxLength)).toList = (data.toList.drop i).take 5 := by
  rw [Array.toList_extract, List.extract_eq_take_drop, Nat.add_sub_cancel_left, maxLength]

theorem decode_of_isCode {data : Bytes} {i : Nat} {bs : List UInt8} (hholds : data.Holds i bs) (hcode : IsCode bs)
    (hlength : bs.length ≤ 5) : decode data i =
      if Nat.ofDigits 128 (bs.map fun b => b.toNat % 128) ≤ 2 ^ 32 - 1 then
        .ok (Nat.ofDigits 128 (bs.map fun b => b.toNat % 128), bs.length)
      else .error (.malformed (.largeCode i)) := by
  have hsplit : split ((data.toList.drop i).take 5) = some bs :=
    split_eq_some.2 ⟨List.prefix_take_iff.2 ⟨hholds, hlength⟩, hcode⟩
  simp only [decode, window_eq, hsplit, value_eq_ofDigits]
  rfl

theorem decode_of_more {data : Bytes} {i : Nat} (hmore : ∀ b ∈ (data.toList.drop i).take 5, 128 ≤ b.toNat) :
    decode data i = if (data.toList.drop i).length < 5 then .error .truncated else .error (.malformed (.longCode i)) := by
  have hshort : ((data.toList.drop i).take 5).length < maxLength ↔ (data.toList.drop i).length < 5 := by
    rw [List.length_take, maxLength]
    omega
  simp only [decode, window_eq, split_eq_none.2 hmore, hshort]

theorem decode_iff {data : Bytes} {i : Nat} {result : Except StreamError (Nat × Nat)} :
    decode data i = result ↔ Decoded data i result := by
  constructor
  · rintro rfl
    cases hsplit : split ((data.toList.drop i).take 5) with
    | some bs =>
      obtain ⟨hbegins, hcode⟩ := split_eq_some.1 hsplit
      obtain ⟨hholds, hlength⟩ := List.prefix_take_iff.1 hbegins
      rw [decode_of_isCode hholds hcode hlength]
      split
      · rename_i hfits
        exact .number hholds hcode hlength hfits
      · rename_i hlarge
        exact .large hholds hcode hlength (Nat.lt_of_not_le hlarge)
    | none =>
      have hmore := split_eq_none.1 hsplit
      rw [decode_of_more hmore]
      split
      · rename_i hshort
        rw [List.take_of_length_le (by omega)] at hmore
        exact .truncated hshort hmore
      · rename_i hlong
        exact .long (Nat.le_of_not_lt hlong) hmore
  · rintro (⟨hholds, hcode, hlength, hfits⟩ | ⟨hholds, hcode, hlength, hlarge⟩ | ⟨hshort, hmore⟩ | ⟨hlong, hmore⟩)
    · rw [decode_of_isCode hholds hcode hlength, if_pos hfits]
    · rw [decode_of_isCode hholds hcode hlength, if_neg (Nat.not_le_of_lt hlarge)]
    · rw [decode_of_more fun b hb => hmore b (List.mem_of_mem_take hb), if_pos hshort]
    · rw [decode_of_more hmore, if_neg (Nat.not_lt_of_le hlong)]

/-- Bytes that are accepted as a number are its code, or longer. -/
theorem length_lt_of_decode {cs : List UInt8} {n : Nat} (h : decode cs.toArray 0 = .ok (n, cs.length))
    (hne : cs ≠ code n) : (code n).length < cs.length := by
  generalize hlength : cs.length = length at h
  cases decode_iff.1 h with
  | @number bs hholds hcode =>
    obtain rfl : bs = cs := List.IsPrefix.eq_of_length hholds hlength.symm
    rw [← value_eq_ofDigits] at hne ⊢
    exact length_code_lt hcode hne

/-- A number that fits in 32 bits has a shortest code of at most five bytes, which is appended to any buffer and read back
there, whatever comes behind it; all other bytes that are read as the number are longer. A number that does not fit is
refused, and the buffer stays as it is. What reading comes to is known for any bytes. -/
theorem append_decode (v : Int) (before after data : Bytes) (i : Nat) :
    (if 0 ≤ v ∧ v ≤ 2 ^ 32 - 1 then
      ∃ bs : List UInt8, append v before = (.ok bs.length, before ++ bs) ∧ encodedLength v = .ok bs.length ∧
        bs.length ≤ 5 ∧ decode (before ++ bs ++ after) before.size = .ok (v.toNat, bs.length) ∧
        ∀ cs : List UInt8, decode cs.toArray 0 = .ok (v.toNat, cs.length) → cs ≠ bs → bs.length < cs.length
    else append v before = (.error ⟨v⟩, before) ∧ encodedLength v = .error ⟨v⟩) ∧
    ∀ result, decode data i = result ↔ Decoded data i result := by
  refine ⟨?_, fun result => decode_iff⟩
  split
  · rename_i hrange
    obtain ⟨n, rfl⟩ := Int.eq_ofNat_of_zero_le hrange.1
    have hn : n < 2 ^ 32 := by omega
    refine ⟨code n, append_eq hn before, encodedLength_eq hn, length_code_le_maxLength hn, ?_, ?_⟩
    · have hbytes : (before ++ code n ++ after).toList = before.toList ++ (code n ++ after.toList) := by simp
      rw [← Array.length_toList]
      apply decode_eq _ hn
      exact Bytes.holds_of_append hbytes
    · intro cs h hne
      exact length_lt_of_decode h hne
  · rename_i hrange
    have hcheck := check_eq_error hrange
    constructor
    · rw [append, hcheck]
    · rw [encodedLength, hcheck]
      rfl

end WordAutomata.VCode
