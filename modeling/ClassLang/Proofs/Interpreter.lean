/-
  ClassLang/Proofs/Interpreter.lean
  =================================
  **What programs mean.**

  A reference interpreter that runs program trees as they are written, with no stack,
  no labels and no types: variables are looked up by name in the blocks around a
  statement, and objects are records in a heap that only grows.  A number is a signed
  word of 32 bits.  A variable of a class owns an object: it begins with a new one, and
  assigning to it copies the fields.  A parameter of a class is another name for the
  object that the caller passes, and so is the receiver.

  Whatever has no meaning (a name that stands for nothing, a condition on strings)
  makes a run go wrong.  Loops and calls may go on for ever, so a run is given fuel and
  may run out of it; a run terminates if it does neither for some amount of fuel.
-/
import Mathlib.Logic.Function.Basic
import ClassLang.Proofs.Grammar
import ClassLang.Statement.Rules

namespace ClassLang

/-- Something that has been written: a number, or the bytes of a string. -/
inductive Output where
  | number (n : Int)
  | text (bytes : List UInt8)
deriving DecidableEq, Repr

namespace Source

/-! ### Data -/

/-- What the fields of an object hold. -/
abbrev Record := String → Int32

/-- An object: its class, and where its record is in the heap. -/
structure ObjectRef where
  className : String
  location : Nat
deriving DecidableEq, Repr

/-- What a name can stand for. -/
inductive Datum where
  | number (n : Int32)
  | text (bytes : List UInt8)
  | object (ref : ObjectRef)
deriving DecidableEq, Repr

/-- The variables of a block in the order of their declaration. -/
abbrev Bindings := List (String × Datum)

namespace Bindings

def find? (bindings : Bindings) (x : String) : Option Datum :=
  (List.find? (·.1 == x) bindings).map (·.2)

/-- Let a name that is declared stand for something else. -/
def set? (x : String) (d : Datum) : Bindings → Option Bindings
  | [] => none
  | b :: rest =>
    if b.1 == x then some ((b.1, d) :: rest) else (set? x d rest).map (b :: ·)

/-- Do so in the innermost block that declares the name. -/
def setInnermost? (x : String) (d : Datum) : List Bindings → Option (List Bindings)
  | [] => none
  | bindings :: outer =>
    match set? x d bindings with
    | some bindings' => some (bindings' :: outer)
    | none => (setInnermost? x d outer).map (bindings :: ·)

end Bindings

/-! ### States -/

/-- The objects and the output of a program, and what the running routine knows: the variables of
    its blocks from the inside out, its parameter, and its receiver. -/
structure State where
  heap : List Record
  output : List Output
  frames : List Bindings
  parameter : Option (String × Datum)
  receiver : Option ObjectRef

namespace State

def initial : State := ⟨[], [], [[]], none, none⟩

def enter (σ : State) : State := { σ with frames := [] :: σ.frames }

def leave (σ : State) : State := { σ with frames := σ.frames.tail }

/-- What a name stands for: the innermost variable of that name, or else the parameter. -/
def lookup? (σ : State) (x : String) : Option Datum :=
  (σ.frames.findSome? (·.find? x)).or ((σ.parameter.filter (·.1 == x)).map (·.2))

/-- Let a name stand for something else. -/
def assign? (σ : State) (x : String) (d : Datum) : Option State :=
  match Bindings.setInnermost? x d σ.frames with
  | some frames => some { σ with frames }
  | none =>
    (σ.parameter.filter (·.1 == x)).map fun q => { σ with parameter := some (q.1, d) }

/-- Declare a name in the innermost block. -/
def declare? (σ : State) (x : String) (d : Datum) : Option State :=
  match σ.frames with
  | [] => none
  | bindings :: outer => some { σ with frames := (bindings ++ [(x, d)]) :: outer }

def write (σ : State) (o : Output) : State := { σ with output := σ.output ++ [o] }

/-! ### Objects -/

def object? (σ : State) (x : String) : Option ObjectRef :=
  match σ.lookup? x with
  | some (.object ref) => some ref
  | _ => none

def record? (σ : State) (ref : ObjectRef) : Option Record := σ.heap[ref.location]?

def setRecord (σ : State) (ref : ObjectRef) (record : Record) : State :=
  { σ with heap := σ.heap.set ref.location record }

/-- Make an object with the given fields, and declare a name for it. -/
def declareObject? (σ : State) (x className : String) (record : Record) : Option State :=
  { σ with heap := σ.heap ++ [record] }.declare? x (.object ⟨className, σ.heap.length⟩)

def field? (σ : State) (ref : ObjectRef) (f : String) : Option Datum :=
  (σ.record? ref).map fun record => .number (record f)

def setField? (σ : State) (ref : ObjectRef) (f : String) (n : Int32) : Option State :=
  (σ.record? ref).map fun record => σ.setRecord ref (Function.update record f n)

/-! ### Values -/

def fetch? (σ : State) : Tree.Place → Option Datum
  | .variable x => σ.lookup? x
  | .receiverField f => σ.receiver.bind fun ref => σ.field? ref f
  | .objectField x f => (σ.object? x).bind fun ref => σ.field? ref f

def eval? (σ : State) : Tree.Value → Option Datum
  | .number digits => (Text.word? digits.toList).map fun n => .number (Int32.ofInt n)
  | .place p => σ.fetch? p

def number? (σ : State) (v : Tree.Value) : Option Int32 :=
  match σ.eval? v with
  | some (.number n) => some n
  | _ => none

def test? (σ : State) (c : Tree.Condition) : Option Bool := do
  let left ← σ.number? c.left
  let right ← σ.number? c.right
  some (c.relation.holds left.toInt right.toInt)

/-! ### Statements -/

def storeNumber? (σ : State) (n : Int32) : Tree.Place → Option State
  | .variable x =>
    match σ.lookup? x with
    | some (.number _) => σ.assign? x (.number n)
    | _ => none
  | .receiverField f => σ.receiver.bind fun ref => σ.setField? ref f n
  | .objectField x f => (σ.object? x).bind fun ref => σ.setField? ref f n

/-- Copy the fields of an object to the one that a variable names. -/
def storeObject? (σ : State) (ref : ObjectRef) : Tree.Place → Option State
  | .variable x => do
    let target ← σ.object? x
    let record ← σ.record? ref
    some (σ.setRecord target record)
  | _ => none

/-- A statement without a block that is no call. -/
def simple? (σ : State) : Tree.Simple → Option State
  | .declare _ x (.value v) => do
    match ← σ.eval? v with
    | .number n => σ.declare? x (.number n)
    | .text bytes => σ.declare? x (.text bytes)
    | .object ref => (σ.record? ref).bind fun record => σ.declareObject? x ref.className record
  | .declare _ x (.text content) => σ.declare? x (.text (stringBytes content))
  | .declare _ x (.create c) => σ.declareObject? x c fun _ => 0
  | .assign target v => do
    match ← σ.eval? v with
    | .number n => σ.storeNumber? n target
    | .text _ => none
    | .object ref => σ.storeObject? ref target
  | .call _ _ => none
  | .print v => (σ.number? v).map fun n => σ.write (.number n.toInt)
  | .printText (.literal content) => some (σ.write (.text (stringBytes content)))
  | .printText (.variable x) =>
    match σ.lookup? x with
    | some (.text bytes) => some (σ.write (.text bytes))
    | _ => none

/-! ### Calls -/

/-- The object that a method is called on, and the name of the method. -/
def callee? (σ : State) : Tree.Callee → Option (ObjectRef × String)
  | .bare m => σ.receiver.map fun ref => (ref, m)
  | .receiver m => σ.receiver.map fun ref => (ref, m)
  | .object x m => (σ.object? x).map fun ref => (ref, m)

/-- What the parameter of a method stands for in a call. -/
def argument? (σ : State) :
    Option Tree.Parameter → Option Tree.Value → Option (Option (String × Datum))
  | none, none => some none
  | some q, some v => (σ.eval? v).map fun d => some (q.name, d)
  | _, _ => none

/-- A call is over: objects and output are as the method left them. -/
def return_ (σ callee : State) : State :=
  { σ with heap := callee.heap, output := callee.output }

end State

def method? (p : Tree.Program) (c m : String) : Option Tree.Method :=
  (p.classes.find? (·.name == c)).bind fun k => k.methods.find? (·.name == m)

/-- The body of the method that is called, and the state it begins in. -/
def State.call? (p : Tree.Program) (σ : State) (callee : Tree.Callee)
    (a : Option Tree.Value) : Option (Tree.Block × State) := do
  let (ref, m) ← σ.callee? callee
  let method ← method? p ref.className m
  let parameter ← σ.argument? method.parameter a
  some (method.body, { σ with frames := [[]], parameter, receiver := some ref })

/-! ### Runs -/

/-- Why a run can have no result. -/
inductive Halt where
  | outOfFuel
  | wrong
deriving DecidableEq, Repr

/-- The statements of a block, up to leaving it. -/
def run (p : Tree.Program) : Nat → State → Tree.Block → Except Halt State
  | 0, _, _ => .error .outOfFuel
  | _ + 1, σ, .finish => .ok σ.leave
  | fuel + 1, σ, .simple (.call callee a) rest =>
    match σ.call? p callee a with
    | none => .error .wrong
    | some (body, σ₁) =>
      match run p fuel σ₁ body with
      | .error halt => .error halt
      | .ok σ₂ => run p fuel (σ.return_ σ₂) rest
  | fuel + 1, σ, .simple s rest =>
    match σ.simple? s with
    | none => .error .wrong
    | some σ₁ => run p fuel σ₁ rest
  | fuel + 1, σ, .branch kind c inner rest =>
    match σ.test? c with
    | none => .error .wrong
    | some false => run p fuel σ rest
    | some true =>
      match run p fuel σ.enter inner with
      | .error halt => .error halt
      | .ok σ₁ =>
        match kind with
        | .conditional => run p fuel σ₁ rest
        | .loop => run p fuel σ₁ (.branch kind c inner rest)

/-- What a program writes. -/
def outputOf (p : Tree.Program) (fuel : Nat) : Except Halt (List Output) :=
  (run p fuel .initial p.main).map (·.output)

end Source

end ClassLang
