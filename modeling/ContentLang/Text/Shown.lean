import ContentLang.Text.Printable

/-!
# Texts in logs and messages

How a text is shown where it must not be mistaken for something else: between double
quotes, with a backslash before quotes and backslashes, with the usual letters for tab
and line ends, and with the code point of every other character that cannot be seen.
Within the name of a file a single quote has a backslash as well.
-/

namespace ContentLang

/-- A character as it is shown between quotes. -/
def showChar (c : Char) : List Char :=
  if c = '"' then ['\\', '"']
  else if c = '\\' then ['\\', '\\']
  else if c = '\t' then ['\\', 't']
  else if c = '\n' then ['\\', 'n']
  else if c = '\r' then ['\\', 'r']
  else if c = '\x00' then ['\\', '0']
  else if isPrintable c then [c]
  else '\\' :: 'u' :: '{' :: Nat.toDigits 16 c.toNat ++ ['}']

/-- **A text as it is shown**, quotes included. -/
def shown (s : String) : String := String.ofList ('"' :: s.toList.flatMap showChar ++ ['"'])

/-- A character as it is shown in the name of a file. -/
def showPathChar (c : Char) : List Char := if c = '\'' then ['\\', '\''] else showChar c

/-- The name of a file as it is shown, quotes included. -/
def shownPath (path : String) : String :=
  String.ofList ('"' :: path.toList.flatMap showPathChar ++ ['"'])

/-- Several texts as a set. -/
def shownSet (xs : List String) : String :=
  String.ofList ('{' :: ((xs.map shown).intersperse ", ").flatMap String.toList ++ ['}'])

end ContentLang
