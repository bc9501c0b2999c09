import WordAutomata.Automaton
import WordAutomata.Header

namespace WordAutomata

/-- The stream of version 5, in which all addresses have one width. Behind the header come the filler, the annotation
separator, and one byte for two widths: that of counts in the upper half, that of addresses in the lower.

A state is its right-language count, if the width of counts is not 0, and its arcs. An arc is its label and a number that
holds the address of the target above three marks; a marked arc whose target stands right behind has one byte of marks
alone. The body begins with a dummy state, which 0 as an address of no target stands for, and the state that leads to the
root. -/
structure Uniform where
  filler : UInt8
  annotation : UInt8
  countWidth : Nat
  addressWidth : Nat
  body : Bytes

namespace Uniform

def version : UInt8 := 5

/-- Bytes before the body. -/
def bodyOffset : Nat := Header.size + 3

def byteLength (u : Uniform) : Nat := bodyOffset + u.body.size

/-- The state that leads to the root stands behind the dummy state. -/
def epsilon (u : Uniform) : Nat := u.countWidth + 1 + u.addressWidth

/-- The marks of an arc: 0 final, 1 last, 2 target next. -/
def marks (u : Uniform) (arc : Nat) : Read Nat := do
  return (← u.body.byte (arc + 1)).toNat

/-- The position behind an arc. -/
def behind (u : Uniform) (arc : Nat) : Read Nat := do
  return if (← u.marks arc).testBit 2 then arc + 2 else arc + 1 + u.addressWidth

def firstArc (u : Uniform) (s : State) : Read Arc :=
  .ok ⟨UInt32.ofNat (s.offset.toNat + u.countWidth)⟩

/-- The arc behind one that is not the last. Arcs are positions of 32 bits. In a body of more than 2^32 bytes, a reader that
cuts the position off to its low 32 bits goes on in another place, where this one fails. -/
def nextArc (u : Uniform) (a : Arc) : Read (Option Arc) := do
  if (← u.marks a.offset.toNat).testBit 1 then return none
  let next ← u.behind a.offset.toNat
  if next < 1 <<< 32 then return some ⟨UInt32.ofNat next⟩
  throw .overflow

def label (u : Uniform) (a : Arc) : Read UInt8 := u.body.byte a.offset.toNat

def isFinal (u : Uniform) (a : Arc) : Read Bool := do
  return (← u.marks a.offset.toNat).testBit 0

/-- The address of a target keeps its low 32 bits. -/
def target (u : Uniform) (a : Arc) : Read (Option State) := do
  let address ←
    if (← u.marks a.offset.toNat).testBit 2 then u.behind a.offset.toNat
    else (· / 8) <$> u.body.littleAt (a.offset.toNat + 1) u.addressWidth
  let offset := UInt32.ofNat address
  return if offset = 0 then none else some ⟨offset⟩

def storedCount (u : Uniform) (s : State) : Read (Option Nat) := do
  if u.countWidth = 0 then return none
  return some (← u.body.littleAt s.offset.toNat u.countWidth)

theorem behind_gt {u : Uniform} {arc next : Nat} (h : u.behind arc = .ok next) : arc < next := by
  unfold behind at h
  cases hm : u.marks arc with
  | error f => simp [hm, bind, Except.bind] at h
  | ok m =>
    simp only [hm, bind, Except.bind, pure, Except.pure, Except.ok.injEq] at h
    split at h <;> omega

theorem nextArc_gt (u : Uniform) (a b : Arc) (h : u.nextArc a = .ok (some b)) : a.offset < b.offset := by
  unfold nextArc at h
  cases hm : u.marks a.offset.toNat with
  | error f => simp [hm, bind, Except.bind] at h
  | ok m =>
    cases hb : u.behind a.offset.toNat with
    | error f =>
      simp only [hm, hb, bind, Except.bind, pure, Except.pure] at h
      split at h <;> simp at h
    | ok next =>
      have := behind_gt hb
      simp only [hm, hb, bind, Except.bind, pure, Except.pure, throw, throwThe, MonadExceptOf.throw] at h
      split at h
      · simp at h
      · split at h
        · rename_i hlt
          simp only [Except.ok.injEq, Option.some.injEq] at h
          subst h
          rw [UInt32.lt_iff_toNat_lt, UInt32.toNat_ofNat_of_lt' (by simpa [UInt32.size] using hlt)]
          omega
        · simp at h

/-- Whatever its contents, a stream of this layout has these three flags. -/
def baseFlags : Flags := Flags.ofList [.flexible, .stopBit, .nextBit]

def flags (u : Uniform) : Flags :=
  if 0 < u.countWidth then baseFlags.insert .numbers else baseFlags

def automaton (u : Uniform) : Automaton where
  flags := u.flags
  epsilon := ⟨UInt32.ofNat u.epsilon⟩
  firstArc := u.firstArc
  nextArc := u.nextArc
  label := u.label
  isFinal := u.isFinal
  target := u.target
  storedCount := u.storedCount
  nextArc_gt := u.nextArc_gt

/-- Whether the body holds the dummy state and the arc that leads to the root. -/
def isComplete (u : Uniform) : Bool :=
  match u.behind (u.epsilon + u.countWidth) with
  | .ok position => position ≤ u.body.size
  | .error _ => false

/-- Reads a stream of this version. The body is checked no further than the arc that leads to the root. -/
def ofBytes (data : Bytes) : Except StreamError Uniform := do
  let header ← Header.parse data
  if header.version ≠ version then throw (.unsupportedVersion header.version)
  if h : bodyOffset ≤ data.size then
    have : Header.size + 3 ≤ data.size := h
    let widths := data[Header.size + 2].toNat
    let u : Uniform := {
      filler := data[Header.size]
      annotation := data[Header.size + 1]
      countWidth := widths / 16
      addressWidth := widths % 16
      body := data.extract bodyOffset data.size }
    if u.addressWidth = 0 ∨ 8 < u.addressWidth then throw (.malformed (.addressWidth u.addressWidth))
    if 4 < u.countWidth then throw (.malformed (.countWidth u.countWidth))
    if u.isComplete then return u else throw .truncated
  else throw .truncated

end Uniform

end WordAutomata
