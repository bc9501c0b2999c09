namespace WordAutomata.Text

/-- What must follow the first byte of a character: how many bytes, and the range of the first of them. -/
structure Lead where
  following : Nat
  low : UInt8
  high : UInt8

/-- The first byte of a character of more than one byte. The narrower ranges leave out numbers that have a shorter form,
surrogates, and numbers above U+10FFFF. -/
def lead? (b : UInt8) : Option Lead :=
  if b < 0xc2 then none
  else if b < 0xe0 then some ⟨1, 0x80, 0xbf⟩
  else if b = 0xe0 then some ⟨2, 0xa0, 0xbf⟩
  else if b = 0xed then some ⟨2, 0x80, 0x9f⟩
  else if b < 0xf0 then some ⟨2, 0x80, 0xbf⟩
  else if b = 0xf0 then some ⟨3, 0x90, 0xbf⟩
  else if b < 0xf4 then some ⟨3, 0x80, 0xbf⟩
  else if b = 0xf4 then some ⟨3, 0x80, 0x8f⟩
  else none

/-- The longest run of following bytes, the first of them within the range of its lead. -/
def Lead.run (l : Lead) : List UInt8 → List UInt8
  | [] => []
  | b :: bs =>
    if l.low ≤ b ∧ b ≤ l.high then b :: (bs.take (l.following - 1)).takeWhile fun b => 0x80 ≤ b && b ≤ 0xbf else []

/-- The character with a first byte and following bytes. -/
def assemble (b : UInt8) (following : List UInt8) : Char :=
  let first := b.toNat % 1 <<< (6 - following.length)
  Char.ofNat (following.foldl (fun n b => n * 64 + b.toNat % 64) first)

/-- Whether bytes are valid UTF-8, and their characters. -/
def decode : List UInt8 → Bool × List Char
  | [] => (true, [])
  | b :: bs =>
    if b < 0x80 then
      let (valid, cs) := decode bs
      (valid, Char.ofNat b.toNat :: cs)
    else match lead? b with
      | none => (false, '\uFFFD' :: (decode bs).2)
      | some l =>
        let following := l.run bs
        let (valid, cs) := decode (bs.drop following.length)
        if following.length = l.following then (valid, assemble b following :: cs)
        else (false, '\uFFFD' :: cs)
termination_by bs => bs.length
decreasing_by all_goals (simp only [List.length_cons, List.length_drop]; omega)

/-- Bytes as text, whatever they are. What is not valid UTF-8 is shown by the replacement character, one for each longest run
of bytes that begins a character and is cut short, and one for each byte that begins none. -/
def decodeLossy (bs : List UInt8) : List Char := (decode bs).2

/-- Bytes as text if they are valid UTF-8. -/
def decodeStrict? (bs : List UInt8) : Option String :=
  let (valid, cs) := decode bs
  if valid then some (String.ofList cs) else none

end WordAutomata.Text
