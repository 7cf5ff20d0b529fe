/-
  ClassLang/Fault.lean
  ====================
  **What can be wrong with a program.**

  A `Fault` is the cause of a failure as data: which rule was broken, with the
  names and types that broke it.  It carries no position, so two programs that
  differ in layout only have equal faults.  The wording is fixed here once, in
  `Fault.text`, and the heading under which a fault is reported in
  `Fault.category`.

  The first fault ends the work on a program; faults are never collected.
-/
import ClassLang.Token.Printer
import ClassLang.Ty

namespace ClassLang

/-! ### Headings -/

/-- The headings under which faults are reported. -/
inductive Category where
  | lexical
  | grammar
  | duplicate
  | undefined
  | mismatch
  | structural
  | endOfInput
deriving DecidableEq, Repr

/-- The words that open a report of each heading. -/
def Category.heading : Category → String
  | .lexical => "lexical error"
  | .grammar => "syntax error"
  | .duplicate => "duplicate declaration"
  | .undefined => "undefined name"
  | .mismatch => "type mismatch"
  | .structural => "structural error"
  | .endOfInput => "unexpected end of input"

/-! ### Causes, heading by heading -/

/-- A text that cannot be cut into tokens. -/
inductive LexicalFault where
  | unsupportedCharacter (c : Char)
  | loneMinus
  | malformedNumber (digits : String) (next : Char)
  | numberOutsideRange (digits : String)
  | unknownEscape (c : Char)
  | unterminatedString
  | numberOutOfRange (digits : String)
deriving DecidableEq, Repr

/-- What the grammar allows where something else was found. -/
inductive Expectation where
  | mark (mark : Punctuation)
  | word (word : Keyword)
  | operator (op : Operator)
  | identifier
  | value
  | place             -- a variable or a field
  | receiver          -- an object to call a method on
  | methodName
  | comparison
  | stringSource      -- a literal or a string variable
  | type
  | statement
  | firstStatement    -- a body holds at least one statement
  | definition        -- a class or the entry point
  | endOfProgram
deriving DecidableEq, Repr

/-- A name that is taken already. -/
inductive Duplicate where
  | className (name : String)
  | field (owner field : String)
  | method (owner method : String)
  | binding (name : String)
  | label (label : String)
deriving DecidableEq, Repr

/-- A name that means nothing where it is used. -/
inductive Undefined where
  | className (name : String)
  | type (name : String)
  | field (owner field : String)
  | method (owner method : String)
  | binding (name method : String)
  | stackSlot (name : String)
  | receiver
  | bareCall (method : String)
deriving DecidableEq, Repr

/-- A value as the source writes it, for messages. -/
inductive Wording where
  | binding (name : String)
  | receiverField (field : String)
  | objectField (owner field : String)
  | literal (n : Int)
deriving DecidableEq, Repr

/-- A value, an argument or a variable of the wrong type. -/
inductive Mismatch where
  | value (expected : Ty) (found : Wording) (actual : Ty)
  | noFields (name : String) (type : Ty)
  | noMethods (name : String) (type : Ty)
  | stringFromOther (name source : String) (type : Ty)
  | stringFromParameter (source : String)
  | stringFromNumber (name digits : String)
  | otherClass (className name : String) (created : Ty)
  | stringAssignment
  | argumentMissing (owner method : String) (type : Ty)
  | argumentUnwanted (owner method : String)
  | notString (name : String) (type : Ty)
deriving DecidableEq, Repr

/-- A class or a method of the wrong shape. -/
inductive Misshape where
  | closedClass (name : String)
  | noField (owner : String)
  | noMethod (owner : String)
  | secondParameter (method : String)
deriving DecidableEq, Repr

/-- The cause of a failure. -/
inductive Fault where
  | lexical (fault : LexicalFault)
  | expected (wanted : Expectation) (found : Lexeme)
  | noMain
  | duplicate (fault : Duplicate)
  | undefined (fault : Undefined)
  | mismatch (fault : Mismatch)
  | structural (fault : Misshape)
  | endOfInput
deriving DecidableEq, Repr

/-! ### Wording -/

def LexicalFault.text : LexicalFault → String
  | .unsupportedCharacter c => s!"unsupported character '{c}'"
  | .loneMinus => "'-' must start a number literal"
  | .malformedNumber digits next => s!"malformed number literal near '{digits}{next}'"
  | .numberOutsideRange digits =>
      s!"number literal {digits} is outside [-2147483648, 2147483647]"
  | .unknownEscape c => s!"unknown escape sequence '\\{c}'"
  | .unterminatedString => "unterminated string literal"
  | .numberOutOfRange digits => s!"number literal {digits} is out of range"

def Expectation.text : Expectation → String
  | .mark m => s!"'{m.text}'"
  | .word w => s!"'{w.text}'"
  | .operator op => s!"'{op.text}'"
  | .identifier => "an identifier"
  | .value => "a value"
  | .place => "a variable or field"
  | .receiver => "an object"
  | .methodName => "a method name"
  | .comparison => "a comparison operator"
  | .stringSource => "a string literal or a string variable"
  | .type => "a type"
  | .statement => "a statement"
  | .firstStatement => "at least one statement"
  | .definition => "'class' or 'main'"
  | .endOfProgram => "end of input after main"

def Duplicate.text : Duplicate → String
  | .className name => s!"class '{name}' has already been defined"
  | .field owner name => s!"field '{name}' has already been defined in class '{owner}'"
  | .method owner name => s!"method '{name}' has already been defined in class '{owner}'"
  | .binding name => s!"variable '{name}' has already been defined in this scope"
  | .label name => s!"method label '{name}' is already used in the generated code"

def Undefined.text : Undefined → String
  | .className name => s!"class '{name}'"
  | .type name => s!"type '{name}' is not defined above"
  | .field owner name => s!"field '{name}' is not defined in class '{owner}'"
  | .method owner name => s!"method '{name}' is not defined in class '{owner}'"
  | .binding name place => s!"variable '{name}' is not defined in method '{place}'"
  | .stackSlot name => s!"variable '{name}' has no stack slot"
  | .receiver => "'this' is only available inside class methods"
  | .bareCall name => s!"method '{name}' called without an object outside of a class"

def Wording.text : Wording → String
  | .binding name => s!"'{name}'"
  | .receiverField field => s!"'this.{field}'"
  | .objectField owner field => s!"'{owner}.{field}'"
  | .literal n => s!"literal {n}"

def Mismatch.text : Mismatch → String
  | .value expected found actual =>
      s!"expected a value of type {expected.text}, found {found.text} of type {actual.text}"
  | .noFields name type => s!"'{name}' has type {type.text} and has no fields"
  | .noMethods name type => s!"'{name}' has type {type.text} and has no methods"
  | .stringFromOther name source type =>
      s!"cannot initialise string '{name}' from '{source}' of type {type.text}"
  | .stringFromParameter source =>
      s!"string parameter '{source}' cannot initialise a string local"
  | .stringFromNumber name digits =>
      s!"cannot initialise string '{name}' with int literal {digits}"
  | .otherClass className name created =>
      s!"cannot initialise {className} '{name}' with a new {created.text}"
  | .stringAssignment => "string variables cannot be reassigned"
  | .argumentMissing owner method type =>
      s!"method '{owner}.{method}' expects an argument of type {type.text}"
  | .argumentUnwanted owner method => s!"method '{owner}.{method}' takes no argument"
  | .notString name type => s!"prints expects a string, '{name}' has type {type.text}"

def Misshape.text : Misshape → String
  | .closedClass name => s!"class '{name}' is already closed"
  | .noField owner => s!"class '{owner}' must declare at least one int field"
  | .noMethod owner => s!"class '{owner}' must declare at least one method"
  | .secondParameter method => s!"method '{method}' may take at most one parameter"

namespace Fault

def category : Fault → Category
  | .lexical _ => .lexical
  | .expected _ _ => .grammar
  | .noMain => .grammar
  | .duplicate _ => .duplicate
  | .undefined _ => .undefined
  | .mismatch _ => .mismatch
  | .structural _ => .structural
  | .endOfInput => .endOfInput

/-- The wording of a fault, without heading and position.  The end of the input says it all in
    its heading. -/
def text : Fault → String
  | .lexical fault => fault.text
  | .expected wanted found => s!"expected {wanted.text}, found {found.shown}"
  | .noMain => "program has no main() definition"
  | .duplicate fault => fault.text
  | .undefined fault => fault.text
  | .mismatch fault => fault.text
  | .structural fault => fault.text
  | .endOfInput => ""

end Fault

end ClassLang
