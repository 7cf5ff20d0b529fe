/-
  ClassLang/Statement/Production.lean
  ===================================
  **Which rule a statement follows.**

  The first four tokens of a statement settle which rule it has to follow; the
  rule then complains about whatever does not fit.  No token is taken to find out.
-/
import ClassLang.Cursor

namespace ClassLang

inductive Production where
  | declaration
  | assignment
  | call
  | conditional
  | loop
  | print
  | printText
deriving DecidableEq, Repr

/-- The name of a rule in the log. -/
def Production.name : Production → String
  | .declaration => "VarInit"
  | .assignment => "Assignment"
  | .call => "MethodCall"
  | .conditional => "If"
  | .loop => "While"
  | .print => "Print"
  | .printText => "PrintString"

/-- What the next tokens say, at most `n` of them. -/
def Cursor.lookahead (c : Cursor) (n : Nat) : List Lexeme :=
  (c.ahead.take n).map (·.lexeme)

namespace Production

/-- What follows a name, where a dot and an identifier belong to the name. -/
def afterName : List Lexeme → Option Lexeme
  | .punctuation .dot :: .identifier _ :: rest => rest.head?
  | rest => rest.head?

/-- The rule for a statement that begins with a name: what follows the name decides. -/
def ofName? (rest : List Lexeme) : Option Production :=
  match afterName rest with
  | some (.operator .assign) => some .assignment
  | some (.punctuation .leftParen) => some .call
  | _ => none

/-- The rule for the statement that begins with the given lexemes. -/
def predict? : List Lexeme → Option Production
  | .keyword .intType :: _ => some .declaration
  | .keyword .stringType :: _ => some .declaration
  | .keyword .ifCond :: _ => some .conditional
  | .keyword .whileLoop :: _ => some .loop
  | .keyword .print :: _ => some .print
  | .keyword .prints :: _ => some .printText
  | .keyword .receiver :: rest => ofName? rest
  | .identifier _ :: .identifier _ :: _ => some .declaration
  | .identifier _ :: rest => ofName? rest
  | _ => none

end Production

end ClassLang
