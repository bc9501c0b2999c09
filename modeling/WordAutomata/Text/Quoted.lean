import WordAutomata.Text.Hex
import WordAutomata.Text.Hidden
import WordAutomata.Text.Lossy

namespace WordAutomata.Text

/-- A character inside quotes of one kind. Those of the other kind stand as they are. -/
def escape (quote c : Char) : String :=
  if c = quote ∨ c = '\\' then String.ofList ['\\', c]
  else if c = '\x00' then "\\0"
  else if c = '\t' then "\\t"
  else if c = '\n' then "\\n"
  else if c = '\r' then "\\r"
  else if isHidden c then "\\u\x7b" ++ hexDigits c.toNat ++ "\x7d"
  else c.toString

/-- Text in double quotes. -/
def quoteText (cs : List Char) : String := "\"" ++ String.join (cs.map (escape '"')) ++ "\""

/-- A character in single quotes. -/
def quoteChar (c : Char) : String := "'" ++ escape '\'' c ++ "'"

/-- Bytes in double quotes. -/
def quoteBytes (bs : List UInt8) : String := quoteText (decodeLossy bs)

end WordAutomata.Text
