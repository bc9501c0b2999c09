import WordAutomata.Reading
import WordAutomata.StreamError

namespace WordAutomata.VCode

/-- The largest number that a v-code may hold. -/
def maxValue : Nat := 1 <<< 32 - 1

/-- The longest code of a number up to `maxValue`. -/
def maxLength : Nat := 5

/-- The shortest code of a number: its groups of seven bits, the least significant first, every byte but the last with its
high bit set. -/
def code (n : Nat) : List UInt8 :=
  if n < 128 then [UInt8.ofNat n] else UInt8.ofNat (128 + n % 128) :: code (n / 128)

/-- Another byte of the code follows. -/
def continues (b : UInt8) : Bool := 128 ≤ b.toNat

/-- The number that groups of seven bits spell, the high bits being ignored. -/
def value : List UInt8 → Nat
  | [] => 0
  | b :: bs => b.toNat % 128 + 128 * value bs

/-- A number that no v-code holds. -/
structure Overflow where
  value : Int
deriving DecidableEq

def Overflow.message (e : Overflow) : String :=
  s!"cannot v-code {e.value}, value must be within 0..={maxValue}"

/-- Refuses a number that does not fit in 32 bits. -/
def check (n : Int) : Except Overflow Nat := if 0 ≤ n ∧ n ≤ maxValue then .ok n.toNat else .error ⟨n⟩

/-- The code of a number that fits in 32 bits. -/
def encode (n : Int) : Except Overflow (List UInt8) := do
  return code (← check n)

/-- Puts the shortest code of a number behind a buffer, byte by byte. -/
def push (n : Nat) (out : Bytes) : Bytes :=
  if n < 128 then out.push (UInt8.ofNat n) else push (n / 128) (out.push (UInt8.ofNat (128 + n % 128)))

/-- Appends the code of a number that fits in 32 bits to a buffer. Tells by how many bytes the buffer has grown. -/
def append (n : Int) (out : Bytes) : Except Overflow Nat × Bytes :=
  match check n with
  | .error e => (.error e, out)
  | .ok n =>
    let grown := push n out
    (.ok (grown.size - out.size), grown)

/-- How many groups of seven bits a number takes. -/
def groups (n : Nat) : Nat := if n < 128 then 1 else groups (n / 128) + 1

/-- The length of the code of a number that fits in 32 bits. -/
def encodedLength (n : Int) : Except Overflow Nat := do
  return groups (← check n)

/-- Cuts a run of bytes behind its first byte without high bit. -/
def split : List UInt8 → Option (List UInt8)
  | [] => none
  | b :: bs => if continues b then (split bs).map (b :: ·) else some [b]

/-- Reads the code at a position, with its length. It has to end within the buffer and within five bytes, and to hold a
number that fits in 32 bits. -/
def decode (data : Bytes) (position : Nat) : Except StreamError (Nat × Nat) :=
  let window := (data.extract position (position + maxLength)).toList
  match split window with
  | some bs =>
    if value bs ≤ maxValue then .ok (value bs, bs.length)
    else .error (.malformed (.largeCode position))
  | none =>
    if window.length < maxLength then .error .truncated
    else .error (.malformed (.longCode position))

/-- The bytes from a position up to the first one without high bit. -/
def codeAt (data : Bytes) (position : Nat) : Read (List UInt8) :=
  if h : position < data.size then
    if continues data[position] then do
      return data[position] :: (← codeAt data (position + 1))
    else return [data[position]]
  else throw (.outsideBuffer position)
termination_by data.size - position

/-- The position behind the code that starts here. -/
def skip (data : Bytes) (position : Nat) : Read Nat := do
  return position + (← codeAt data position).length

/-- The number coded at a position. Bits beyond 32 of a fifth byte are lost, and a sixth byte has no place at all. -/
def valueAt (data : Bytes) (position : Nat) : Read UInt32 := do
  let bs ← codeAt data position
  if bs.length ≤ maxLength then return UInt32.ofNat (value bs) else throw .overflow

theorem skip_gt {data : Bytes} {position next : Nat} (h : skip data position = .ok next) : position < next := by
  have hcode : ∀ bs, codeAt data position = .ok bs → 0 < bs.length := by
    intro bs hbs
    rw [codeAt] at hbs
    split at hbs
    · split at hbs
      · cases hc : codeAt data (position + 1) with
        | error f => simp [hc, bind, Except.bind] at hbs
        | ok cs => simp [hc, bind, Except.bind, pure, Except.pure] at hbs; simp [← hbs]
      · simp [pure, Except.pure] at hbs; simp [← hbs]
    · simp [throw, throwThe, MonadExceptOf.throw] at hbs
  cases hc : codeAt data position with
  | error f => simp [skip, hc, bind, Except.bind] at h
  | ok bs =>
    have := hcode bs hc
    simp [skip, hc, bind, Except.bind, pure, Except.pure] at h
    omega

end WordAutomata.VCode
