import FlowLang.Text.Unprintable
import FlowLang.Text.Extending

/-!
# Quoted text

Text between quotation marks with everything escaped that could be misread: the mark itself, the
backslash, line breaks and tabs, and by their code points the characters that are not seen alone.

It is the library's format for quoted text, which listings and messages use.
-/

namespace FlowLang.Text

/-- A character by its code point, `\x7bhex\x7d` after a backslash and a `u`. -/
def codePoint (c : Char) : List Char :=
  '\\' :: 'u' :: '\x7b' :: Nat.toDigits 16 c.toNat ++ ['\x7d']

/-- A character as it stands between two `mark`s. -/
def escape (mark c : Char) : List Char :=
  if c = '\x00' then ['\\', '0']
  else if c = '\t' then ['\\', 't']
  else if c = '\n' then ['\\', 'n']
  else if c = '\r' then ['\\', 'r']
  else if c = '\\' ∨ c = mark then ['\\', c]
  else if c.toNat < 0x7f ∧ 0x20 ≤ c.toNat then [c]
  else if isExtending c || isUnprintable c then codePoint c
  else [c]

/-- Text between two `mark`s. -/
def quotedBy (mark : Char) (text : List Char) : String :=
  String.ofList (mark :: text.flatMap (escape mark) ++ [mark])

/-- A string between double quotation marks. -/
def quoted (s : String) : String := quotedBy '\x22' s.toList

/-- A character between single quotation marks. -/
def quotedChar (c : Char) : String := quotedBy '\x27' [c]

end FlowLang.Text
