namespace WordAutomata

/-- A stored buffer. -/
abbrev Bytes := Array UInt8

/-- A sequence of labels: what an automaton accepts or refuses. -/
abbrev Word := List UInt8

/-- The number spelled with its least significant byte first. -/
def ofLittle : List UInt8 → Nat
  | [] => 0
  | b :: bs => b.toNat + 256 * ofLittle bs

/-- The low `width` bytes of a number, the least significant first. -/
def little : Nat → Nat → List UInt8
  | 0, _ => []
  | width + 1, n => UInt8.ofNat n :: little width (n / 256)

/-- The number spelled with its most significant byte first. -/
def ofBig (bs : List UInt8) : Nat := ofLittle bs.reverse

/-- The low `width` bytes of a number, the most significant first. -/
def big (width n : Nat) : List UInt8 := (little width n).reverse

@[simp] theorem length_little (width n : Nat) : (little width n).length = width := by
  induction width generalizing n with
  | zero => rfl
  | succ width ih => simp [little, ih]

@[simp] theorem length_big (width n : Nat) : (big width n).length = width := by
  simp [big]

end WordAutomata
