/-
  ClassLang/Text/Numeral.lean
  ===========================
  **Decimal numerals of 32-bit words.**

  A numeral is an optional sign and at least one ASCII digit.  It names a word when
  its value lies in the signed 32-bit range; leading zeros and a minus before zero
  are allowed, so one word has many numerals.
-/

namespace ClassLang.Text

/-- The value of a digit string in base ten, the most significant digit first. -/
def digitsValue (digits : List Char) : Nat :=
  digits.foldl (fun value digit => 10 * value + (digit.toNat - '0'.toNat)) 0

/-- The value of a text that is one or more digits and nothing else. -/
def natural? (text : List Char) : Option Nat :=
  if text ≠ [] ∧ text.all Char.isDigit then some (digitsValue text) else none

/-- The value of digits behind at most one sign. -/
def integer? : List Char → Option Int
  | '-' :: digits => (natural? digits).map fun n => -(n : Int)
  | '+' :: digits => (natural? digits).map fun n => (n : Int)
  | digits => (natural? digits).map fun n => (n : Int)

/-- The integers that a signed 32-bit word holds. -/
def isWord (n : Int) : Bool :=
  -2147483648 ≤ n && n ≤ 2147483647

/-- The value of a numeral, if it names a signed 32-bit word. -/
def word? (text : List Char) : Option Int :=
  (integer? text).filter isWord

/-- What a numeral names is a word. -/
theorem isWord_of_word? {text : List Char} {n : Int} (h : word? text = some n) :
    isWord n = true :=
  (Option.filter_eq_some_iff.1 h).2

end ClassLang.Text
