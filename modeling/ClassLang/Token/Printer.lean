/-
  ClassLang/Token/Printer.lean
  ============================
  **How tokens are spelled, classified and shown.**

  Three texts belong to a lexeme: its `literal` (the spelling, except that a string
  gives its content), its `kindName` (the class it belongs to, as the token listing
  prints it) and its `shown` form, which messages quote.
-/
import ClassLang.Text.Quoted
import ClassLang.Token.Basic

namespace ClassLang

/-! ### Reserved words -/

def Keyword.all : List Keyword :=
  [.classDef, .intType, .stringType, .mainDef, .create, .receiver, .ifCond, .whileLoop, .print,
    .prints]

def Keyword.text : Keyword → String
  | .classDef => "class"
  | .intType => "int"
  | .stringType => "string"
  | .mainDef => "main"
  | .create => "CreateInstance"
  | .receiver => "this"
  | .ifCond => "if"
  | .whileLoop => "while"
  | .print => "print"
  | .prints => "prints"

/-- The name of a reserved word in token listings. -/
def Keyword.name : Keyword → String
  | .classDef => "Class"
  | .intType => "Int"
  | .stringType => "String"
  | .mainDef => "Main"
  | .create => "CreateInstance"
  | .receiver => "This"
  | .ifCond => "If"
  | .whileLoop => "While"
  | .print => "Print"
  | .prints => "Prints"

def Keyword.ofText? (text : String) : Option Keyword :=
  Keyword.all.find? fun word => word.text == text

/-- A reserved word is found under its own spelling. -/
theorem Keyword.ofText?_text (word : Keyword) : Keyword.ofText? word.text = some word := by
  cases word <;> decide

/-! ### Punctuation marks and operators -/

def Punctuation.char : Punctuation → Char
  | .leftBrace => '\x7b'
  | .rightBrace => '\x7d'
  | .leftParen => '('
  | .rightParen => ')'
  | .semicolon => ';'
  | .dot => '.'
  | .comma => ','

def Punctuation.text (mark : Punctuation) : String :=
  String.singleton mark.char

/-- The name of a punctuation mark in token listings. -/
def Punctuation.name : Punctuation → String
  | .leftBrace => "LeftBrace"
  | .rightBrace => "RightBrace"
  | .leftParen => "LeftParen"
  | .rightParen => "RightParen"
  | .semicolon => "Semicolon"
  | .dot => "Dot"
  | .comma => "Comma"

def Punctuation.ofChar? : Char → Option Punctuation
  | '\x7b' => some .leftBrace
  | '\x7d' => some .rightBrace
  | '(' => some .leftParen
  | ')' => some .rightParen
  | ';' => some .semicolon
  | '.' => some .dot
  | ',' => some .comma
  | _ => none

/-- A punctuation mark is found under its own character. -/
theorem Punctuation.ofChar?_char (mark : Punctuation) :
    Punctuation.ofChar? mark.char = some mark := by
  cases mark <;> rfl

def Comparison.text : Comparison → String
  | .equal => "=="
  | .greater => ">"
  | .greaterEqual => ">="
  | .less => "<"
  | .lessEqual => "<="

/-- The name of a comparison in token listings. -/
def Comparison.name : Comparison → String
  | .equal => "Equal"
  | .greater => "Greater"
  | .greaterEqual => "GreaterEqual"
  | .less => "Less"
  | .lessEqual => "LessEqual"

def Operator.text : Operator → String
  | .assign => "="
  | .compare relation => relation.text

/-- The name of an operator in token listings. -/
def Operator.name : Operator → String
  | .assign => "Assign"
  | .compare relation => relation.name

/-! ### Lexemes -/

namespace Lexeme

/-- The spelling of a lexeme; for a string, its content. -/
def literal : Lexeme → String
  | .identifier name => name
  | .keyword word => word.text
  | .number digits => digits
  | .string content => content
  | .punctuation mark => mark.text
  | .operator op => op.text

/-- The class of a lexeme, with the member of the class where that is fixed. -/
def kindName : Lexeme → String
  | .identifier _ => "Identifier"
  | .keyword word => s!"Keyword({word.name})"
  | .number _ => "Number"
  | .string _ => "StringLiteral"
  | .punctuation mark => s!"Punctuation({mark.name})"
  | .operator op => s!"Operator({op.name})"

/-- The lexeme as a message quotes it: a string in its quoted form, everything else between
    single quotes. -/
def shown : Lexeme → String
  | .string content => Text.quoted content
  | lexeme => s!"'{lexeme.literal}'"

end Lexeme

end ClassLang
