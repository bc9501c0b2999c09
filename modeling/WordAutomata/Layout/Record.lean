import WordAutomata.Automaton
import WordAutomata.StreamError

namespace WordAutomata

/-- An arc of a freshly built automaton. It is stored in six bytes: marks, label, and the address of its target in four bytes,
the most significant first, 0 if nothing can follow. -/
structure Record where
  label : UInt8
  isFinal : Bool
  target : UInt32
deriving DecidableEq

namespace Record

/-- Bytes that a record takes. -/
def size : Nat := 6

def toBytes (r : Record) (isLast : Bool) : List UInt8 :=
  UInt8.ofNat ((if isLast then 1 else 0) + if r.isFinal then 2 else 0) :: r.label :: big 4 r.target.toNat

/-- The records of a state, the last one marked. -/
def rowBytes : List Record → List UInt8
  | [] => []
  | [r] => r.toBytes true
  | r :: s :: rs => r.toBytes false ++ rowBytes (s :: rs)

end Record

/-- A buffer of whole records. A state is the address of its first record; its arcs follow each other up to one with the last
mark. The record at 0 leads to the root. -/
structure RecordBuffer where
  data : Bytes

namespace RecordBuffer

/-- Accepts a buffer of one or more whole records. The record that leads to the root has to be the first. -/
def ofBytes (data : Bytes) (epsilon : UInt32) : Except StreamError RecordBuffer :=
  if epsilon ≠ 0 then .error (.nonZeroEpsilon epsilon)
  else if data.size < Record.size ∨ data.size % Record.size ≠ 0 then
    .error (.malformed (.brokenRecords data.size))
  else .ok ⟨data⟩

/-- The arc behind one that is not the last. Arcs are positions of 32 bits, and a sum beyond them fails. -/
def nextArc (b : RecordBuffer) (a : Arc) : Read (Option Arc) := do
  let marks ← b.data.byte a.offset.toNat
  if marks.toNat.testBit 0 then return none
  if a.offset.toNat + Record.size < 1 <<< 32 then return some ⟨a.offset + UInt32.ofNat Record.size⟩
  throw .overflow

def label (b : RecordBuffer) (a : Arc) : Read UInt8 := b.data.byte (a.offset.toNat + 1)

def isFinal (b : RecordBuffer) (a : Arc) : Read Bool := do
  return (← b.data.byte a.offset.toNat).toNat.testBit 1

def target (b : RecordBuffer) (a : Arc) : Read (Option State) := do
  let address ← b.data.bigAt (a.offset.toNat + 2) 4
  return if address = 0 then none else some ⟨UInt32.ofNat address⟩

theorem nextArc_gt (b : RecordBuffer) (a c : Arc) (h : b.nextArc a = .ok (some c)) : a.offset < c.offset := by
  unfold nextArc at h
  cases hm : b.data.byte a.offset.toNat with
  | error f => simp [hm, bind, Except.bind] at h
  | ok marks =>
    simp only [hm, bind, Except.bind, pure, Except.pure, throw, throwThe, MonadExceptOf.throw] at h
    split at h
    · simp at h
    · split at h
      · simp only [Except.ok.injEq, Option.some.injEq] at h
        subst h
        rw [UInt32.lt_iff_toNat_lt, UInt32.toNat_add]
        simp only [Record.size, UInt32.toNat_ofNat'] at *
        omega
      · simp at h

def automaton (b : RecordBuffer) : Automaton where
  flags := Flags.empty
  epsilon := ⟨0⟩
  firstArc s := .ok ⟨s.offset⟩
  nextArc := b.nextArc
  label := b.label
  isFinal := b.isFinal
  target := b.target
  storedCount _ := .ok none
  nextArc_gt := b.nextArc_gt

end RecordBuffer

end WordAutomata
