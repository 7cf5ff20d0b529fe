/-
  ClassLang/Text/Quoted.lean
  ==========================
  **A string as a message shows it.**

  Between double quotes, six characters are written as a backslash and a letter,
  every character without a printable shape as its code point in hexadecimal, and
  every other character as itself.  The result is one line whatever the string
  holds.
-/
import ClassLang.Text.Printable

namespace ClassLang.Text

/-- The code point of a character between `\u` and braces, in lower-case hexadecimal without
    leading zeros. -/
def codePointEscape (c : Char) : List Char :=
  ['\\', 'u', '\x7b'] ++ Nat.toDigits 16 c.toNat ++ ['\x7d']

/-- How one character of a quoted string is shown. -/
def showChar (c : Char) : List Char :=
  match c with
  | '\x00' => ['\\', '0']
  | '\t' => ['\\', 't']
  | '\r' => ['\\', 'r']
  | '\n' => ['\\', 'n']
  | '\\' => ['\\', '\\']
  | '"' => ['\\', '"']
  | c => if isPrintable c then [c] else codePointEscape c

/-- The string between double quotes, each character shown by `showChar`. -/
def quoted (text : String) : String :=
  String.ofList (['"'] ++ text.toList.flatMap showChar ++ ['"'])

end ClassLang.Text
