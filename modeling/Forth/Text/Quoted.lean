import Forth.Text.Quoted.Table

/-!
# Quoted text

A text between quotation marks, in which quotation marks, backslashes and some controls stand
behind a backslash, and a character that cannot be shown is written by its number.
-/

namespace Forth.Text

/-- A character as it stands inside quoted text. -/
def quoteChar (c : Char) : List Char :=
  match c with
  | '\x00' => ['\\', '0']
  | '\t' => ['\\', 't']
  | '\r' => ['\\', 'r']
  | '\n' => ['\\', 'n']
  | '\\' => ['\\', '\\']
  | '"' => ['\\', '"']
  | c =>
    if hiddenRanges.covers c.toNat then
      ['\\', 'u', '\x7b'] ++ Nat.toDigits 16 c.toNat ++ ['\x7d']
    else
      [c]

/-- The text between quotation marks. -/
def quoted (text : String) : String :=
  String.ofList ('"' :: text.toList.flatMap quoteChar ++ ['"'])

end Forth.Text
