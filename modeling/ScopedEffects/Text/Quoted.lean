import ScopedEffects.Text.Printable

/-! Quoted text. A text is shown between double quotes, with the quote, the backslash and every
character that does not show as itself written as an escape. Lists and optional texts are shown
around quoted texts. -/

namespace ScopedEffects.Text

/-- The lower-case hexadecimal digits of a number, without leading zeros. -/
def hexDigits (n : Nat) : String := String.ofList (Nat.toDigits 16 n)

/-- The form of one character inside double quotes. -/
def escapeChar (c : Char) : String :=
  if c = '"' then "\\\""
  else if c = '\\' then "\\\\"
  else if c = '\n' then "\\n"
  else if c = '\r' then "\\r"
  else if c = '\t' then "\\t"
  else if c = '\x00' then "\\0"
  else if isPrintable c then c.toString
  else "\\u\x7b" ++ hexDigits c.toNat ++ "\x7d"

/-- A text between double quotes. -/
def quote (s : String) : String :=
  "\"" ++ String.join (s.toList.map escapeChar) ++ "\""

/-- Items between two delimiters, separated by commas. -/
def delimited (opening closing : String) (items : List String) : String :=
  opening ++ ", ".intercalate items ++ closing

/-- A list of texts, each quoted, between square brackets. -/
def quoteList (items : List String) : String := delimited "[" "]" (items.map quote)

/-- A set of texts, each quoted, between braces. -/
def quoteSet (items : List String) : String := delimited "\x7b" "\x7d" (items.map quote)

/-- A record: its name and its fields, in order, between braces. -/
def record (name : String) (fields : List (String × String)) : String :=
  delimited (name ++ " \x7b ") " \x7d" (fields.map fun f => f.1 ++ ": " ++ f.2)

/-- A value that may be absent. -/
def optional : Option String → String
  | none => "None"
  | some s => "Some(" ++ s ++ ")"

end ScopedEffects.Text
