import WordAutomata.Automaton
import WordAutomata.Header
import WordAutomata.VCode

namespace WordAutomata

/-- The stream of version 0xC6, in which counts and addresses are v-coded and frequent labels are kept in a table. Behind the
header come the flags in two bytes, the size of the table and the table, whose entry 0 stands for no label.

A state is its right-language count, if the flags say so, and its arcs. An arc begins with a byte of three marks above
the index of its label; if the index is 0 the label follows, and unless the target mark is set the address of the target
does. The target of an arc with that mark is the state behind its own. The body begins with the state that leads to the
root, whose address 0 stands for no target. -/
structure Compact where
  flags : Flags
  labels : Bytes
  body : Bytes

namespace Compact

def version : UInt8 := 0xc6

/-- Entries of the largest table, the unused entry 0 included. -/
def maxLabels : Nat := 32

/-- Bytes before the table. -/
def tableOffset : Nat := Header.size + 3

def byteLength (c : Compact) : Nat := tableOffset + c.labels.size + c.body.size

/-- The first byte of an arc: the index of its label below the marks 5 final, 6 last, 7 target next. -/
def marks (c : Compact) (arc : Nat) : Read Nat := do
  return (← c.body.byte arc).toNat

/-- The index that marks hold. -/
def labelIndex (marks : Nat) : Nat := marks % 32

/-- Bytes before the address of an arc. -/
def addressOffset (marks : Nat) : Nat := if labelIndex marks = 0 then 2 else 1

/-- The position behind an arc. -/
def behind (c : Compact) (arc : Nat) : Read Nat := do
  let m ← c.marks arc
  let position := arc + addressOffset m
  if m.testBit 7 then return position else VCode.skip c.body position

theorem behind_gt {c : Compact} {arc next : Nat} (h : c.behind arc = .ok next) : arc < next := by
  unfold behind at h
  cases hm : c.marks arc with
  | error f => simp [hm, bind, Except.bind] at h
  | ok m =>
    have hpos : arc < arc + addressOffset m := by unfold addressOffset; split <;> omega
    simp only [hm, bind, Except.bind, pure, Except.pure] at h
    split at h
    · simp only [Except.ok.injEq] at h
      omega
    · have := VCode.skip_gt h
      omega

theorem lt_size_of_behind {c : Compact} {arc next : Nat} (h : c.behind arc = .ok next) : arc < c.body.size := by
  unfold behind marks Bytes.byte at h
  split at h
  · assumption
  · simp [bind, Except.bind] at h

/-- The position behind the last arc of the state that an arc belongs to. -/
def behindState (c : Compact) (arc : Nat) : Read Nat := do
  if (← c.marks arc).testBit 6 then c.behind arc
  else
    match h : c.behind arc with
    | .error f => throw f
    | .ok next =>
      have := behind_gt h
      have := lt_size_of_behind h
      c.behindState next
termination_by c.body.size - arc

def firstArc (c : Compact) (s : State) : Read Arc := do
  if c.flags.numbers then return ⟨UInt32.ofNat (← VCode.skip c.body s.offset.toNat)⟩
  else return ⟨s.offset⟩

/-- The arc behind one that is not the last. Arcs are positions of 32 bits. In a body of more than 2^32 bytes, a reader that
cuts the position off to its low 32 bits goes on in another place, where this one fails. -/
def nextArc (c : Compact) (a : Arc) : Read (Option Arc) := do
  if (← c.marks a.offset.toNat).testBit 6 then return none
  let next ← c.behind a.offset.toNat
  if next < 1 <<< 32 then return some ⟨UInt32.ofNat next⟩
  throw .overflow

def label (c : Compact) (a : Arc) : Read UInt8 := do
  let index := labelIndex (← c.marks a.offset.toNat)
  if index = 0 then c.body.byte (a.offset.toNat + 1)
  else match c.labels[index]? with
    | some l => return l
    | none => throw (.outsideLabels index)

def isFinal (c : Compact) (a : Arc) : Read Bool := do
  return (← c.marks a.offset.toNat).testBit 5

def target (c : Compact) (a : Arc) : Read (Option State) := do
  let m ← c.marks a.offset.toNat
  let offset ←
    if m.testBit 7 then UInt32.ofNat <$> c.behindState a.offset.toNat
    else VCode.valueAt c.body (a.offset.toNat + addressOffset m)
  return if offset = 0 then none else some ⟨offset⟩

def storedCount (c : Compact) (s : State) : Read (Option Nat) := do
  if c.flags.numbers then return some (← VCode.valueAt c.body s.offset.toNat).toNat
  else return none

theorem nextArc_gt (c : Compact) (a b : Arc) (h : c.nextArc a = .ok (some b)) : a.offset < b.offset := by
  unfold nextArc at h
  cases hm : c.marks a.offset.toNat with
  | error f => simp [hm, bind, Except.bind] at h
  | ok m =>
    cases hb : c.behind a.offset.toNat with
    | error f =>
      simp only [hm, hb, bind, Except.bind, pure, Except.pure] at h
      split at h <;> simp at h
    | ok next =>
      have := behind_gt hb
      simp only [hm, hb, bind, Except.bind, pure, Except.pure, throw, throwThe, MonadExceptOf.throw] at h
      split at h
      · simp at h
      · split at h
        · rename_i hlt
          simp only [Except.ok.injEq, Option.some.injEq] at h
          subst h
          rw [UInt32.lt_iff_toNat_lt, UInt32.toNat_ofNat_of_lt' (by simpa [UInt32.size] using hlt)]
          omega
        · simp at h

def automaton (c : Compact) : Automaton where
  flags := c.flags
  epsilon := ⟨0⟩
  firstArc := c.firstArc
  nextArc := c.nextArc
  label := c.label
  isFinal := c.isFinal
  target := c.target
  storedCount := c.storedCount
  nextArc_gt := c.nextArc_gt

/-- Refuses a body whose first state does not hold an arc with a sound address. -/
def checkEpsilon (c : Compact) : Except StreamError Unit := do
  let arc ← if c.flags.numbers then Prod.snd <$> VCode.decode c.body 0 else pure 0
  match c.body[arc]? with
  | none => throw .truncated
  | some m =>
    if !m.toNat.testBit 7 then
      let _ ← VCode.decode c.body (arc + addressOffset m.toNat)

/-- Reads a stream of this version. The body is checked no further than the arc that leads to the root. -/
def ofBytes (data : Bytes) : Except StreamError Compact := do
  let header ← Header.parse data
  if header.version ≠ version then throw (.unsupportedVersion header.version)
  if h : tableOffset ≤ data.size then
    have : Header.size + 2 < data.size := h
    let entries := data[Header.size + 2].toNat
    if maxLabels < entries then throw (.malformed (.labelTable entries))
    if data.size ≤ tableOffset + entries then throw .truncated
    let c : Compact := {
      flags := Flags.ofMask (ofBig [data[Header.size], data[Header.size + 1]])
      labels := data.extract tableOffset (tableOffset + entries)
      body := data.extract (tableOffset + entries) data.size }
    c.checkEpsilon
    return c
  else throw .truncated

end Compact

end WordAutomata
