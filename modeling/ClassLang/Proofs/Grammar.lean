/-
  ClassLang/Proofs/Grammar.lean
  =============================
  **The grammar of the class language, as trees.**

  A program tree is what a program says, with every name as it is written: nothing
  is resolved, nothing has a place in memory yet.  Each kind of tree has a `yield`,
  the lexemes that it is spelled with, so a grammar rule is one constructor and one
  line of a `yield`.  The pass over the tokens never builds such a tree; the trees
  are the second side of every statement about which programs are accepted and what
  they mean.

  The statements of a block are one tree, a chain of statements up to the end of the
  block, so that a recursion on it is a plain recursion.  What the grammar says about
  "one or more" is a field of the tree concerned: a class has a field and a method,
  and the body of a routine has a statement.
-/
import ClassLang.Body

namespace ClassLang.Tree

/-! ### Places and values -/

/-- A variable, a field of the receiver, or a field of an object that a variable names. -/
inductive Place where
  | variable (name : String)
  | receiverField (field : String)
  | objectField (object field : String)
deriving DecidableEq, Repr

/-- A number as it is written, or what a place holds. -/
inductive Value where
  | number (digits : String)
  | place (place : Place)
deriving DecidableEq, Repr

/-- A type: one of the two reserved words, or a name. -/
inductive TypeName where
  | int
  | string
  | named (name : String)
deriving DecidableEq, Repr

/-- What a variable begins with: a value, a string literal, or a new object. -/
inductive Initial where
  | value (value : Value)
  | text (content : String)
  | create (className : String)
deriving DecidableEq, Repr

/-- What can be written as a string: a literal or a variable. -/
inductive Text where
  | literal (content : String)
  | variable (name : String)
deriving DecidableEq, Repr

/-- The method that a call names, on the receiver of the caller or on an object. -/
inductive Callee where
  | bare (method : String)
  | receiver (method : String)
  | object (name method : String)
deriving DecidableEq, Repr

structure Condition where
  left : Value
  relation : Comparison
  right : Value
deriving DecidableEq, Repr

/-! ### Statements and blocks -/

/-- A statement without a block. -/
inductive Simple where
  | declare (type : TypeName) (name : String) (initial : Initial)
  | assign (target : Place) (value : Value)
  | call (callee : Callee) (argument : Option Value)
  | print (value : Value)
  | printText (text : Text)
deriving DecidableEq, Repr

/-- The statements of a block, up to its end. -/
inductive Block where
  | finish
  | simple (statement : Simple) (rest : Block)
  | branch (kind : BranchKind) (condition : Condition) (inner rest : Block)
deriving DecidableEq, Repr

/-! ### Definitions -/

structure Parameter where
  type : TypeName
  name : String
deriving DecidableEq, Repr

/-- A method with at least one statement. -/
structure Method where
  name : String
  parameter : Option Parameter
  body : Block
  body_ne : body ≠ .finish

/-- A class with at least one field and one method. -/
structure Class where
  name : String
  fields : List String
  methods : List Method
  fields_ne : fields ≠ []
  methods_ne : methods ≠ []

/-- A program: classes, and an entry point with at least one statement. -/
structure Program where
  classes : List Class
  main : Block
  main_ne : main ≠ .finish

/-! ### Yields

`mark`, `word` and `ident` are short for the three kinds of lexemes that rules are made of. -/

abbrev mark (m : Punctuation) : Lexeme := .punctuation m

abbrev word (w : Keyword) : Lexeme := .keyword w

abbrev ident (x : String) : Lexeme := .identifier x

abbrev assignSign : Lexeme := .operator .assign

/-- `x`, `this.f` or `x.f`. -/
def Place.yield : Place → List Lexeme
  | .variable x => [ident x]
  | .receiverField f => [word .receiver, mark .dot, ident f]
  | .objectField x f => [ident x, mark .dot, ident f]

def Value.yield : Value → List Lexeme
  | .number digits => [.number digits]
  | .place p => p.yield

def TypeName.lexeme : TypeName → Lexeme
  | .int => word .intType
  | .string => word .stringType
  | .named c => ident c

/-- A value, a literal, or `C.CreateInstance()`. -/
def Initial.yield : Initial → List Lexeme
  | .value v => v.yield
  | .text content => [.string content]
  | .create c => [ident c, mark .dot, word .create, mark .leftParen, mark .rightParen]

def Text.lexeme : Text → Lexeme
  | .literal content => .string content
  | .variable x => ident x

/-- `m`, `this.m` or `x.m`. -/
def Callee.yield : Callee → List Lexeme
  | .bare m => [ident m]
  | .receiver m => [word .receiver, mark .dot, ident m]
  | .object x m => [ident x, mark .dot, ident m]

def argumentYield : Option Value → List Lexeme
  | none => []
  | some v => v.yield

/-- A comparison between parentheses. -/
def Condition.yield (c : Condition) : List Lexeme :=
  mark .leftParen ::
    (c.left.yield ++ .operator (.compare c.relation) :: (c.right.yield ++ [mark .rightParen]))

/-- A statement up to its semicolon. -/
def Simple.yield : Simple → List Lexeme
  | .declare type x initial =>
      type.lexeme :: ident x :: assignSign :: (initial.yield ++ [mark .semicolon])
  | .assign target value =>
      target.yield ++ assignSign :: (value.yield ++ [mark .semicolon])
  | .call callee argument =>
      callee.yield ++ mark .leftParen ::
        (argumentYield argument ++ [mark .rightParen, mark .semicolon])
  | .print value =>
      word .print :: mark .leftParen :: (value.yield ++ [mark .rightParen, mark .semicolon])
  | .printText text =>
      [word .prints, mark .leftParen, text.lexeme, mark .rightParen, mark .semicolon]

/-- The word that begins a statement with a block. -/
def kindWord : BranchKind → Keyword
  | .conditional => .ifCond
  | .loop => .whileLoop

/-- The statements of a block, without the braces around them. -/
def Block.yield : Block → List Lexeme
  | .finish => []
  | .simple s rest => s.yield ++ rest.yield
  | .branch kind condition inner rest =>
      word (kindWord kind) :: (condition.yield ++ mark .leftBrace ::
        (inner.yield ++ mark .rightBrace :: rest.yield))

/-- The parameter between the parentheses of a method, or nothing. -/
def parameterYield : Option Parameter → List Lexeme
  | none => []
  | some p => [p.type.lexeme, ident p.name]

/-- A method from its name to its right brace. -/
def Method.yield (m : Method) : List Lexeme :=
  ident m.name :: mark .leftParen :: (parameterYield m.parameter ++
    mark .rightParen :: mark .leftBrace :: (m.body.yield ++ [mark .rightBrace]))

def fieldYield (f : String) : List Lexeme :=
  [word .intType, ident f, mark .semicolon]

/-- A class from its first word to its right brace. -/
def Class.yield (c : Class) : List Lexeme :=
  word .classDef :: ident c.name :: mark .leftBrace ::
    (c.fields.flatMap fieldYield ++ (c.methods.flatMap Method.yield ++ [mark .rightBrace]))

def mainYield (body : Block) : List Lexeme :=
  word .mainDef :: mark .leftParen :: mark .rightParen :: mark .leftBrace ::
    (body.yield ++ [mark .rightBrace])

def Program.yield (p : Program) : List Lexeme :=
  p.classes.flatMap Class.yield ++ mainYield p.main

end ClassLang.Tree
