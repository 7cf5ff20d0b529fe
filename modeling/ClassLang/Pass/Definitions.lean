/-
  ClassLang/Pass/Definitions.lean
  ===============================
  **Reading classes and the entry point.**

  A program is any number of classes and then the entry point.  A class is one or
  more fields and then one or more methods.  A method enters the table of classes
  before its body is read, so it can call itself, and its label is claimed then: the
  label must not be one that generated code has on its own account or that another
  method or a string already took.
-/
import ClassLang.Pass.Statements

namespace ClassLang.Pass

open Reading (fail ofExcept modify many)
open Reader (take nextIs mark word identifier reject)

/-! ### Routines -/

/-- Begin a routine: nothing is declared yet but the parameter. -/
def beginRoutine (owner : Option String) (method : String) (parameter : Option Parameter) :
    Pass Unit := do
  modify fun σ => { σ with owner, method, scope := .empty }
  match parameter with
  | some parameter => setScope ((← context).scope.setParameter (.ofParameter parameter))
  | none => pure ()

/-- The body of a routine and its right brace. -/
def routine (owner : Option String) (method : String) : Pass Routine := do
  let body ← routineBody
  mark .rightBrace
  let routine : Routine := ⟨owner, method, body⟩
  record (.routineDone routine.entryLabel)
  pure routine

/-- Take a label for a method. -/
def claimLabel (label : String) : Pass Unit := do
  let data := (← context).data
  if Label.isGenerated label || data.isTaken label then
    fail (.duplicate (.label label))
  else
    setData (data.reserve label)

/-! ### Classes -/

/-- The name that a lexeme is, if it is an identifier. -/
def name? : Lexeme → Option String
  | .identifier name => some name
  | _ => none

def word? (word : Keyword) (lexeme : Lexeme) : Option Unit :=
  if lexeme.isWord word then some () else none

/-- The parameter between the parentheses of a method, if there is one. -/
def parameter : Pass (Option Parameter) := do
  if ← nextIs (Lexeme.isMark .rightParen) then
    pure none
  else
    let type ← ofExcept ((← context).declaredType (← take))
    let name ← identifier
    pure (some ⟨name, type⟩)

/-- A method of a class, behind its name. -/
def method (owner name : String) : Pass Routine := do
  mark .leftParen
  let parameter ← parameter
  if ← nextIs (Lexeme.isMark .comma) then
    fail (.structural (.secondParameter name))
  mark .rightParen
  mark .leftBrace
  setTable (← ofExcept ((← context).table.addMethod owner ⟨name, parameter⟩))
  claimLabel (Label.method owner name)
  beginRoutine (some owner) name parameter
  routine (some owner) name

def field (owner : String) : Pass Unit := do
  let field ← identifier
  mark .semicolon
  setTable (← ofExcept ((← context).table.addField owner field))
  record (.field owner field)

/-- Begin a class: its name can be used from here on. -/
def beginClass (name : String) : Pass Unit := do
  let table ← ofExcept ((← context).table.declareClass name)
  modify fun σ => { σ with table, owner := some name }
  record (.classBegun name)

def endClass (name : String) : Pass Unit :=
  modify fun σ => { σ with table := σ.table.close name, owner := none }

/-- A class, behind its first word. -/
def classDefinition : Pass (List Routine) := do
  let name ← identifier
  beginClass name
  mark .leftBrace
  let _ ← many (word? .intType) fun _ => field name
  if (← context).table.fieldCount name = 0 then
    fail (.structural (.noField name))
  let methods ← many name? (method name)
  if methods.isEmpty then
    fail (.structural (.noMethod name))
  mark .rightBrace
  endClass name
  pure methods

/-! ### Programs -/

def entryPoint : Pass Routine := do
  word .mainDef
  mark .leftParen
  mark .rightParen
  mark .leftBrace
  beginRoutine none Keyword.mainDef.text none
  routine none Keyword.mainDef.text

def atEnd : Pass Bool :=
  return (← Reading.state).cursor.atEnd

/-- A whole program: the entry point and the methods of all classes. -/
def program : Pass (Routine × List Routine) := do
  let classes ← many (word? .classDef) fun _ => classDefinition
  if ← atEnd then
    fail .noMain
  if !(← nextIs (Lexeme.isWord .mainDef)) then
    reject .definition
  let entry ← entryPoint
  if !(← atEnd) then
    reject .endOfProgram
  pure (entry, classes.flatten)

end ClassLang.Pass
