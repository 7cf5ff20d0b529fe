/-
  ClassLang/Statement/Rules.lean
  ==============================
  **The rules for statements.**

  A rule begins behind the first token of its statement, reads to the closing
  semicolon, and checks names and types as it goes; the first thing that does not
  fit stops it.  What it hands on is a `Request`: the statement with its names
  resolved, but without the storage that a declaration or a literal still has to
  be given.  Blocks are not read here, only the condition before them.

  Rules are readers of the bare cursor, with the surroundings as an argument, so
  a rule cannot change anything but how far the tokens are read.
-/
import ClassLang.Body
import ClassLang.Reading
import ClassLang.Statement.Context
import ClassLang.Statement.Production
import ClassLang.Text.Numeral

namespace ClassLang

/-- A checked statement that may still need storage. -/
inductive Request where
  | number (name : String) (value : Value)
  | string (name : String) (bytes : List UInt8)
  | create (name className : String)
  | copy (name className : String) (source : Value)
  | printLiteral (bytes : List UInt8)
  | ready (command : Command)             -- needs none
deriving DecidableEq, Repr

/-- The bytes that a string is stored as. -/
def stringBytes (text : String) : List UInt8 :=
  text.toUTF8.data.toList

namespace Rule

open Reading (state fail ofExcept)
open Reader (take nextIs mark word operator identifier)

/-! ### Places and values -/

/-- The place that begins with the given lexeme: a variable, or a field behind a dot. -/
def place (Γ : Context) (first : Lexeme) : Reader Place := do
  match first with
  | .keyword .receiver =>
    mark .dot
    let field ← identifier
    let owner ← ofExcept Γ.receiverClass
    let index ← ofExcept (Γ.fieldIndex owner field)
    pure (.receiverField field index)
  | .identifier name =>
    if ← nextIs (Lexeme.isMark .dot) then
      mark .dot
      let field ← identifier
      let owner ← ofExcept (Γ.symbol name)
      match owner.type with
      | .object className =>
        let index ← ofExcept (Γ.fieldIndex className field)
        let storage ← ofExcept (Γ.storage owner)
        pure (.objectField owner storage field index)
      | type => fail (.mismatch (.noFields owner.name type))
    else
      let symbol ← ofExcept (Γ.symbol name)
      let storage ← ofExcept (Γ.storage symbol)
      pure (.binding symbol storage)
  | found => fail (.expected .place found)

/-- The value that begins with the given lexeme, of whatever type. -/
def anyValue (Γ : Context) (first : Lexeme) : Reader Value := do
  match first with
  | .number digits =>
    match Text.word? digits.toList with
    | some n => pure (.literal n)
    | none => fail (.lexical (.numberOutOfRange digits))
  | .identifier _ => return .place (← place Γ first)
  | .keyword .receiver => return .place (← place Γ first)
  | found => fail (.expected .value found)

/-- A value of the given type. -/
def value (Γ : Context) (expected : Ty) : Reader Value := do
  let value ← anyValue Γ (← take)
  if value.type = expected then
    pure value
  else
    fail (.mismatch (.value expected value.wording value.type))

/-! ### Declarations -/

def numberInit (Γ : Context) (name : String) : Reader Request := do
  let value ← value Γ .int
  mark .semicolon
  pure (.number name value)

/-- The bytes that a string variable begins with: those of a literal, or of the string variable
    named.  A parameter has no bytes that are known here. -/
def stringSource (Γ : Context) (name : String) : Reader (List UInt8) := do
  match ← take with
  | .string content => pure (stringBytes content)
  | .identifier source =>
    let symbol ← ofExcept (Γ.symbol source)
    if symbol.type = .string then
      match symbol.label with
      | some label => pure (Γ.bytesAt label)
      | none => fail (.mismatch (.stringFromParameter symbol.name))
    else
      fail (.mismatch (.stringFromOther name symbol.name symbol.type))
  | .number digits => fail (.mismatch (.stringFromNumber name digits))
  | found => fail (.expected .stringSource found)

def stringInit (Γ : Context) (name : String) : Reader Request := do
  let bytes ← stringSource Γ name
  mark .semicolon
  pure (.string name bytes)

/-- The tokens ahead make a new object: an identifier, a dot and the word for it. -/
def createsObject : List Lexeme → Bool
  | [.identifier _, .punctuation .dot, .keyword .create] => true
  | _ => false

/-- What an object variable begins with: a new object of its class, or a copy of an object. -/
def objectInit (Γ : Context) (name className : String) : Reader Request := do
  if createsObject ((← state).lookahead 3) then
    let created ← ofExcept (Γ.table.resolveType (← identifier))
    if created = .object className then
      mark .dot
      word .create
      mark .leftParen
      mark .rightParen
      mark .semicolon
      pure (.create name className)
    else
      fail (.mismatch (.otherClass className name created))
  else
    let source ← value Γ (.object className)
    mark .semicolon
    pure (.copy name className source)

/-- A type, a name that is free, and what the variable begins with. -/
def declaration (Γ : Context) (first : Lexeme) : Reader Request := do
  let type ← ofExcept (Γ.declaredType first)
  let name ← identifier
  if (Γ.scope.findInnermost? name).isSome then
    fail (.duplicate (.binding name))
  else
    operator .assign
    match type with
    | .int => numberInit Γ name
    | .string => stringInit Γ name
    | .object className => objectInit Γ name className

/-! ### Assignments -/

/-- A place and a value of its type.  Strings stay what they are. -/
def assignment (Γ : Context) (first : Lexeme) : Reader Request := do
  let target ← place Γ first
  match target.type with
  | .string => fail (.mismatch .stringAssignment)
  | .int =>
    operator .assign
    let value ← value Γ .int
    mark .semicolon
    pure (.ready (.assignNumber target value))
  | .object className =>
    operator .assign
    let value ← value Γ (.object className)
    mark .semicolon
    pure (.ready (.assignObject target value (Γ.table.fieldCount className)))

/-! ### Calls -/

/-- The object and the method of a call that begins with the given lexeme.  Without a dot the
    method is called on the receiver of the caller. -/
def callee (Γ : Context) (first : Lexeme) : Reader (Receiver × String) := do
  if ← nextIs (Lexeme.isMark .dot) then
    mark .dot
    let method ← identifier
    match first with
    | .keyword .receiver =>
      let owner ← ofExcept Γ.receiverClass
      pure (.current owner, method)
    | .identifier name =>
      let symbol ← ofExcept (Γ.symbol name)
      match symbol.type with
      | .object className =>
        let storage ← ofExcept (Γ.storage symbol)
        pure (.object symbol className storage, method)
      | type => fail (.mismatch (.noMethods symbol.name type))
    | found => fail (.expected .receiver found)
  else
    match first with
    | .identifier method =>
      match Γ.owner with
      | some owner => pure (.current owner, method)
      | none => fail (.undefined (.bareCall method))
    | found => fail (.expected .methodName found)

/-- The argument of a call, exactly if the method has a parameter. -/
def argument (Γ : Context) (owner : String) (signature : Signature) : Reader (Option Value) := do
  let closes ← nextIs (Lexeme.isMark .rightParen)
  match signature.parameter, closes with
  | some parameter, true =>
      fail (.mismatch (.argumentMissing owner signature.name parameter.type))
  | some parameter, false => return some (← value Γ parameter.type)
  | none, true => pure none
  | none, false => fail (.mismatch (.argumentUnwanted owner signature.name))

/-- A method, and an argument if the method has a parameter. -/
def call (Γ : Context) (first : Lexeme) : Reader Request := do
  let (receiver, method) ← callee Γ first
  let signature ← ofExcept (Γ.signature receiver.owner method)
  mark .leftParen
  let argument ← argument Γ receiver.owner signature
  mark .rightParen
  mark .semicolon
  pure (.ready (.call receiver signature argument))

/-! ### Output -/

def print (Γ : Context) : Reader Request := do
  mark .leftParen
  let value ← value Γ .int
  mark .rightParen
  mark .semicolon
  pure (.ready (.print value))

/-- What is to be written: a literal, or the string that a name stands for. -/
def textArgument (Γ : Context) : Reader Request := do
  match ← take with
  | .string content => pure (.printLiteral (stringBytes content))
  | .identifier name =>
    let symbol ← ofExcept (Γ.symbol name)
    if symbol.type = .string then
      pure (.ready (.printText (.named symbol)))
    else
      fail (.mismatch (.notString symbol.name symbol.type))
  | found => fail (.expected .stringSource found)

def printText (Γ : Context) : Reader Request := do
  mark .leftParen
  let request ← textArgument Γ
  mark .rightParen
  mark .semicolon
  pure request

/-! ### Conditions -/

/-- A comparison of two numbers between parentheses. -/
def condition (Γ : Context) : Reader Condition := do
  mark .leftParen
  let left ← value Γ .int
  match ← take with
  | .operator (.compare relation) =>
    let right ← value Γ .int
    mark .rightParen
    pure ⟨left, relation, right⟩
  | found => fail (.expected .comparison found)

end Rule

end ClassLang
