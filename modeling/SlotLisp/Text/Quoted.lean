import SlotLisp.Text.Shapeless

/-!
# Quoted text

Text between a pair of quotes, on one line and in visible characters: line ends and the like
have short escapes, the quote in use and the backslash are escaped, and a character without a
shape of its own is written as its code point.
-/

namespace SlotLisp.Text

/-- The escape `\u` with the code point in hexadecimal between braces. -/
def codePoint (c : Char) : List Char :=
  '\\' :: 'u' :: '\x7b' :: Nat.toDigits 16 c.toNat ++ ['\x7d']

def escape (quote c : Char) : List Char :=
  if c = '\x00' then ['\\', '0']
  else if c = '\t' then ['\\', 't']
  else if c = '\r' then ['\\', 'r']
  else if c = '\n' then ['\\', 'n']
  else if c = '\\' || c = quote then ['\\', c]
  else if isShapeless c then codePoint c
  else [c]

def quoted (quote : Char) (text : List Char) : List Char :=
  quote :: text.flatMap (escape quote) ++ [quote]

/-- A string in double quotes; single quotes stand for themselves. -/
def quotedString (s : String) : String := String.ofList (quoted '"' s.toList)

/-- A character in single quotes; a double quote stands for itself. -/
def quotedChar (c : Char) : String := String.ofList (quoted '\'' [c])

example : quotedString "a\"b\n" = "\"a\\\"b\\n\"" := by decide +kernel
example : quotedChar '\x1b' = "'\\u\x7b1b\x7d'" := by decide +kernel

end SlotLisp.Text
