import Mathlib.Order.Bounds.Basic
import Mathlib.Tactic.Ring
import WordAutomata.Proofs.Order

namespace WordAutomata

theorem ofLittle_append (as bs : List UInt8) : ofLittle (as ++ bs) = ofLittle as + 256 ^ as.length * ofLittle bs := by
  induction as with
  | nil => simp [ofLittle]
  | cons a as ih =>
    rw [List.cons_append, ofLittle, ih, ofLittle, List.length_cons, Nat.pow_succ, Nat.mul_add, Nat.add_assoc]
    ring

theorem ofLittle_lt (bs : List UInt8) : ofLittle bs < 256 ^ bs.length := by
  induction bs with
  | nil => simp [ofLittle]
  | cons b bs ih =>
    have hb := b.toNat_lt
    rw [ofLittle, List.length_cons, Nat.pow_succ]
    omega

theorem ofBig_cons (b : UInt8) (bs : List UInt8) : ofBig (b :: bs) = 256 ^ bs.length * b.toNat + ofBig bs := by
  rw [ofBig, List.reverse_cons, ofLittle_append, List.length_reverse, ofBig, Nat.add_comm]
  simp [ofLittle]

theorem ofBig_lt (bs : List UInt8) : ofBig bs < 256 ^ bs.length := by
  rw [ofBig, ← List.length_reverse]
  exact ofLittle_lt _

/-- Numbers with the same number of digits compare by their first digits, and then by the rest. -/
theorem compare_digits {base a b x y : Nat} (hx : x < base) (hy : y < base) :
    compare (base * a + x) (base * b + y) = (compare a b).then (compare x y) := by
  rcases Nat.lt_trichotomy a b with h | rfl | h
  · have hle : base * a + base ≤ base * b := Nat.mul_succ base a ▸ Nat.mul_le_mul_left base h
    rw [Nat.compare_eq_lt.2 h, Nat.compare_eq_lt.2 (by omega)]
    rfl
  · simp [compare, compareOfLessAndEq]
  · have hle : base * b + base ≤ base * a := Nat.mul_succ base b ▸ Nat.mul_le_mul_left base h
    rw [Nat.compare_eq_gt.2 h, Nat.compare_eq_gt.2 (by omega)]
    rfl

theorem compare_ofBig {a b : Word} (h : a.length = b.length) : compare (ofBig a) (ofBig b) = comparePlain a b := by
  induction a generalizing b with
  | nil =>
    obtain rfl := List.length_eq_zero_iff.1 h.symm
    rfl
  | cons x a ih =>
    cases b with
    | nil => cases h
    | cons y b =>
      have hlength : a.length = b.length := Nat.succ.inj h
      have hx := hlength ▸ ofBig_lt a
      rw [ofBig_cons, ofBig_cons, hlength, compare_digits hx (ofBig_lt b), ih hlength, comparePlain]
      simp [compare, compareOfLessAndEq, UInt8.lt_iff_toNat_lt, UInt8.toNat_inj]

theorem comparePlain_append {a b : Word} (h : a.length = b.length) (a' b' : Word) :
    comparePlain (a ++ a') (b ++ b') = (comparePlain a b).then (comparePlain a' b') := by
  induction a generalizing b with
  | nil =>
    obtain rfl := List.length_eq_zero_iff.1 h.symm
    rfl
  | cons x a ih =>
    cases b with
    | nil => cases h
    | cons y b =>
      rw [List.cons_append, List.cons_append, comparePlain, ih (Nat.succ.inj h), comparePlain, Ordering.then_assoc]

/-- Blocks make no difference. -/
theorem compareWide_eq (a b : Word) : compareWide a b = comparePlain a b := by
  fun_induction compareWide a b with
  | case1 a b h => rfl
  | case2 a b h ih =>
    simp only [List.drop_eq_nil_iff, not_or, Nat.not_le] at h
    have hlength : (a.take 8).length = (b.take 8).length := by
      rw [List.length_take, List.length_take]
      omega
    rw [ih, compare_ofBig hlength, ← comparePlain_append hlength, List.take_append_drop, List.take_append_drop]

/-- Both comparisons tell the order of words. The words agree as far as they are said to share their labels and no further,
and what stands at that place tells which of them comes first. -/
theorem compare_words_parting (a b : Word) :
    compareWide a b = comparePlain a b ∧
    ((comparePlain a b = .lt ↔ Precedes a b) ∧ (comparePlain a b = .eq ↔ a = b) ∧
      (comparePlain a b = .gt ↔ Precedes b a)) ∧
    IsGreatest {n | n ≤ a.length ∧ n ≤ b.length ∧ a.take n = b.take n} (commonLength a b) ∧
    (comparePlain a b = .lt ↔ ∃ hb : commonLength a b < b.length,
      commonLength a b = a.length ∨ ∃ ha : commonLength a b < a.length, a[commonLength a b] < b[commonLength a b]) := by
  have hlt : comparePlain a b = .lt ↔ Precedes a b := compareWords_eq_lt
  refine ⟨compareWide_eq a b, ⟨hlt, compareWords_eq_eq, compareWords_eq_gt⟩, ⟨?_, ?_⟩, ?_⟩
  · exact ⟨commonLength_le_left a b, commonLength_le_right a b, take_commonLength a b⟩
  · rintro n ⟨ha, hb, h⟩
    exact le_commonLength ha hb h
  · rw [hlt]
    exact precedes_iff_parts

/-- How words are compared: a byte at a time, or eight. -/
inductive Comparison
  | plain
  | wide
deriving DecidableEq

def Comparison.order : Comparison → Word → Word → Ordering
  | plain => comparePlain
  | wide => compareWide

theorem Comparison.order_eq (c : Comparison) : c.order = compareWords := by
  cases c with
  | plain => rfl
  | wide => exact funext₂ compareWide_eq

end WordAutomata
