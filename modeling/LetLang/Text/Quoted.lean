import LetLang.Text.Shape

/-!
The quoted form of characters and strings in messages and outlines: a quote, the characters, a
quote. The backslash, the quote in use and the usual controls are written with a backslash, and a
character without a shape of its own as its code point in hexadecimal.
-/

namespace LetLang.Text

def codePoint (c : Char) : List Char :=
  '\\' :: 'u' :: '\x7b' :: Nat.toDigits 16 c.toNat ++ ['\x7d']

def escape (quote c : Char) : List Char :=
  if c = '\x00' then ['\\', '0']
  else if c = '\t' then ['\\', 't']
  else if c = '\n' then ['\\', 'n']
  else if c = '\r' then ['\\', 'r']
  else if c = '\\' ∨ c = quote then ['\\', c]
  else if hasShape c then [c]
  else codePoint c

def quotedChar (c : Char) : String := String.ofList ('\'' :: escape '\'' c ++ ['\''])

def quoted (s : String) : String :=
  String.ofList ('"' :: s.toList.flatMap (escape '"') ++ ['"'])

end LetLang.Text
