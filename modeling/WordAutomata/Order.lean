import WordAutomata.Bytes
import Std.Data.TreeMap.Lemmas

namespace WordAutomata

/-- Compares two words one byte at a time. Bytes are unsigned, and a proper beginning comes first. -/
def comparePlain : Word → Word → Ordering
  | [], [] => .eq
  | [], _ :: _ => .lt
  | _ :: _, [] => .gt
  | a :: as, b :: bs => (compare a b).then (comparePlain as bs)

/-- Compares two words eight bytes at a time. The most significant byte of a block comes first, so that the order of the
numbers is the order of the blocks; what is left at the end is compared byte by byte. -/
def compareWide (a b : Word) : Ordering :=
  if _h : a.drop 7 = [] ∨ b.drop 7 = [] then comparePlain a b
  else (compare (ofBig (a.take 8)) (ofBig (b.take 8))).then (compareWide (a.drop 8) (b.drop 8))
termination_by a.length
decreasing_by
  simp only [List.drop_eq_nil_iff] at _h
  simp only [List.length_drop]
  omega

theorem comparePlain_eq : comparePlain = List.compareLex compare := by
  funext a b
  induction a generalizing b with
  | nil => cases b <;> simp [comparePlain, List.compareLex]
  | cons x a ih =>
    cases b with
    | nil => simp [comparePlain, List.compareLex]
    | cons y b =>
      simp only [comparePlain, List.compareLex, ih]
      cases compare x y <;> rfl

instance : Std.TransCmp comparePlain := comparePlain_eq ▸ inferInstance

instance : Std.LawfulEqCmp comparePlain := comparePlain_eq ▸ inferInstance

/-- The order in which a builder expects its entries. -/
abbrev compareWords : Word → Word → Ordering := comparePlain

/-- How many labels two words share at their beginning. -/
def commonLength : Word → Word → Nat
  | a :: as, b :: bs => if a = b then commonLength as bs + 1 else 0
  | _, _ => 0

end WordAutomata
