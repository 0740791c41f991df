import IntLang.Text.Invisible

/-!
Quoted text: the form in which messages, printed expressions and stack listings show a string. It
stands between double quotes; the quote, the backslash and the four commonest control characters
have short escapes, and a character with no visible form is written by its code point.
-/
namespace IntLang

def quoteChar (c : Char) : List Char :=
  if c = '\x00' then ['\\', '0']
  else if c = '\t' then ['\\', 't']
  else if c = '\r' then ['\\', 'r']
  else if c = '\n' then ['\\', 'n']
  else if c = '\\' then ['\\', '\\']
  else if c = '"' then ['\\', '"']
  else if isInvisible c then
    ['\\', 'u', '{'] ++ Nat.toDigits 16 c.toNat ++ ['}']
  else [c]

def quote (s : String) : String :=
  String.ofList ('"' :: s.toList.flatMap quoteChar ++ ['"'])

end IntLang
