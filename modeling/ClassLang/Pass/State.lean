/-
  ClassLang/Pass/State.lean
  =========================
  **What the pass over a program carries along.**

  The pass reads a program once, from the first token to the last.  Its state is
  the surroundings of the statement being read, the tokens ahead, the number of
  labels given out, and the log.  The operations here are all the ways in which
  reading a statement changes that state: declaring a variable, storing a string,
  drawing a number, opening and leaving a block.
-/
import ClassLang.Event
import ClassLang.Statement.Rules

namespace ClassLang

structure State extends Context where
  cursor : Cursor
  labels : Nat             -- numbers given out so far
  log : Array Event
deriving Repr

instance : HasCursor State where
  cursor := State.cursor
  setCursor σ c := { σ with cursor := c }
  cursor_setCursor _ _ := rfl

/-- The state before the first token.  The fixed labels are kept for code. -/
def State.initial (tokens : List Token) : State where
  table := .empty
  scope := .empty
  owner := none
  method := ""
  data := ⟨[], Label.fixed⟩
  cursor := .ofTokens tokens
  labels := 0
  log := #[]

/-- A piece of the pass. -/
abbrev Pass : Type → Type := Reading State

namespace Pass

open Reading (state fail ofExcept modify)

def record (event : Event) : Pass Unit :=
  modify fun σ => { σ with log := σ.log.push event }

/-- The surroundings of the next statement. -/
def context : Pass Context :=
  return (← state).toContext

def setTable (table : ClassTable) : Pass Unit :=
  modify fun σ => { σ with table }

def setScope (scope : Scope) : Pass Unit :=
  modify fun σ => { σ with scope }

def setData (data : DataSection) : Pass Unit :=
  modify fun σ => { σ with data }

/-- Draw the next number for a label. -/
def freshNumber : Pass Nat := do
  modify fun σ => { σ with labels := σ.labels + 1 }
  return (← state).labels

def declare (symbol : Symbol) : Pass Unit := do
  setScope (← ofExcept ((← context).scope.declare symbol))

/-- Declare a variable on the stack, and tell where it lies. -/
def declareOnStack (name : String) (type : Ty) : Pass Nat := do
  declare (.onStack name type)
  ofExcept ((← context).stackOffset name)

/-- Store a string under a label made of the given name, and tell which label it got. -/
def storeString (name : String) (bytes : List UInt8) : Pass String := do
  let Γ ← context
  let (label, data) := Γ.data.insert (Label.data Γ.owner Γ.method name) bytes
  setData data
  pure label

/-- Open a block behind its left brace. -/
def enterBlock : Pass Unit := do
  Reader.mark .leftBrace
  setScope (← context).scope.push
  record (.blockEntered (← context).scope.depth)

/-- Leave a block before its right brace. -/
def leaveBlock : Pass Unit := do
  setScope (← context).scope.pop
  record (.blockLeft (← context).scope.depth)
  Reader.mark .rightBrace

/-- Give a checked statement the storage that it needs. -/
def fulfil : Request → Pass Command
  | .number name value => do
    let offset ← declareOnStack name .int
    pure (.declareNumber name value offset)
  | .string name bytes => do
    let label ← storeString name bytes
    record (.stringStored name label)
    declare (.inData name label)
    pure (.declareString name label)
  | .create name className => do
    let offset ← declareOnStack name (.object className)
    pure (.createObject name className ((← context).table.fieldCount className) offset)
  | .copy name className source => do
    let offset ← declareOnStack name (.object className)
    pure (.copyObject name className source ((← context).table.fieldCount className) offset)
  | .printLiteral bytes => do
    let number ← freshNumber
    let label ← storeString ("literal_" ++ toString number) bytes
    pure (.printText (.literal label))
  | .ready command => pure command

end Pass

end ClassLang
