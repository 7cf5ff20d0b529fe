/-
  ClassLang/Token/Basic.lean
  ==========================
  **Tokens of the class language.**

  A `Lexeme` is what a token says, a `Token` adds where it stands.  Everything that
  checks a program or makes code for it looks at lexemes only; positions serve messages.
  Keeping the two apart is what makes "the layout of a program does not matter" a
  statement about a function of the lexemes.

  An operator is either the assignment sign or one of five comparisons, so the
  code that needs a comparison can ask for one by its type.
-/
import ClassLang.Position

namespace ClassLang

/-! ### The fixed vocabulary -/

/-- The ten reserved words. -/
inductive Keyword where
  | classDef      -- opens a class definition
  | intType
  | stringType
  | mainDef       -- opens the entry point
  | create        -- makes a new object
  | receiver      -- the object that a method runs on
  | ifCond
  | whileLoop
  | print         -- writes a number
  | prints        -- writes a string
deriving DecidableEq, Repr

/-- The seven punctuation marks. -/
inductive Punctuation where
  | leftBrace
  | rightBrace
  | leftParen
  | rightParen
  | semicolon
  | dot
  | comma
deriving DecidableEq, Repr

/-- The five ways to compare two numbers. -/
inductive Comparison where
  | equal
  | greater
  | greaterEqual
  | less
  | lessEqual
deriving DecidableEq, Repr

/-- Whether two integers stand in the relation that a comparison names. -/
def Comparison.holds : Comparison → Int → Int → Bool
  | .equal, a, b => a == b
  | .greater, a, b => b < a
  | .greaterEqual, a, b => b ≤ a
  | .less, a, b => a < b
  | .lessEqual, a, b => a ≤ b

/-- An operator assigns or compares. -/
inductive Operator where
  | assign
  | compare (relation : Comparison)
deriving DecidableEq, Repr

/-! ### Lexemes and tokens -/

/-- What one token says.  A number keeps its digits as written, a string its content with the
    escapes already read. -/
inductive Lexeme where
  | identifier (name : String)
  | keyword (word : Keyword)
  | number (digits : String)
  | string (content : String)
  | punctuation (mark : Punctuation)
  | operator (op : Operator)
deriving DecidableEq, Repr

/-- A lexeme and the position of its first character. -/
structure Token where
  lexeme : Lexeme
  position : Position
deriving DecidableEq, Repr

namespace Lexeme

def isMark (mark : Punctuation) (lexeme : Lexeme) : Bool :=
  lexeme = .punctuation mark

def isWord (word : Keyword) (lexeme : Lexeme) : Bool :=
  lexeme = .keyword word

def isOperator (op : Operator) (lexeme : Lexeme) : Bool :=
  lexeme = .operator op

end Lexeme

end ClassLang
