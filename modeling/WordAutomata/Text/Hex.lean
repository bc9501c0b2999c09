namespace WordAutomata.Text

/-- The digits of a number in lower case, without leading zeros. -/
def hexDigits (n : Nat) : String := String.ofList (Nat.toDigits 16 n)

/-- The two digits of a byte. -/
def hexPair (b : UInt8) : String :=
  String.ofList [Nat.digitChar (b.toNat / 16), Nat.digitChar (b.toNat % 16)]

/-- A byte as a number in source code: `0x0a`. -/
def hexByte (b : UInt8) : String := "0x" ++ hexPair b

/-- The digits of a run of bytes, two each. -/
def hexBytes (bs : List UInt8) : String := String.join (bs.map hexPair)

end WordAutomata.Text
