/-
  ClassLang/Body.lean
  ===================
  **Checked statements and their code.**

  A `Command` is a statement that has been read, checked and given its storage:
  every name in it is resolved, every offset and label is known.  A `Body` strings
  commands and nested blocks together and ends by releasing the stack bytes of its
  own variables.  The code of a body is therefore a plain recursion on it, with no
  state to thread: what each piece turns into can be said piece by piece.

  Names stay in the commands next to offsets and labels.  The code needs only the
  latter; the names say what the statement means.
-/
import ClassLang.Assembly.Listing
import ClassLang.Value

namespace ClassLang

open Instruction (load store copy allocate release pushRegister)

/-! ### Commands -/

/-- The object that a method is called on. -/
inductive Receiver where
  | current (owner : String)                                   -- the one the caller runs on
  | object (symbol : Symbol) (owner : String) (storage : Storage)
deriving DecidableEq, Repr

def Receiver.owner : Receiver → String
  | .current owner => owner
  | .object _ owner _ => owner

/-- Where the string to be written comes from. -/
inductive TextSource where
  | literal (label : String)         -- the entry that a literal was given
  | named (symbol : Symbol)
deriving DecidableEq, Repr

/-- A statement without a block, ready for its code. -/
inductive Command where
  | declareNumber (name : String) (value : Value) (offset : Nat)
  | declareString (name label : String)
  | createObject (name className : String) (fields offset : Nat)
  | copyObject (name className : String) (source : Value) (fields offset : Nat)
  | assignNumber (target : Place) (value : Value)
  | assignObject (target : Place) (value : Value) (fields : Nat)
  | call (receiver : Receiver) (method : Signature) (argument : Option Value)
  | print (value : Value)
  | printText (source : TextSource)
deriving DecidableEq, Repr

/-! ### Code of commands -/

/-- Leave the address of the object that a method is called on in `EAX`. -/
def Receiver.address : Receiver → List Instruction
  | .current _ => [load .eax .receiver]
  | .object _ _ storage => storage.objectAddress .eax

/-- Push the address of a string.  A variable has an entry of its own, a parameter holds the
    address of one. -/
def TextSource.push : TextSource → Instruction
  | .literal label => .push (.label label)
  | .named symbol =>
    match symbol.role, symbol.label with
    | .binding, some label => .push (.label label)
    | _, _ => .push (.memory (some .dword) .argument)

/-- Set the fields of an object on the stack to zero. -/
def zeroFields (offset fields : Nat) : List Instruction :=
  (List.range fields).map fun index =>
    .mov (.memory (some .dword) (.slot (offset + 4 * index))) (.immediate 0)

/-- Copy the fields of the object at `EAX` to the addresses given, one after the other through
    `EDX`. -/
def copyFields (fields : Nat) (target : Nat → Address) : List Instruction :=
  (List.range fields).flatMap fun index =>
    [load .edx (.field .eax index), store (target index) .edx]

namespace Command

def code : Command → List Instruction
  | .declareNumber _ value offset =>
      value.fetch .eax ++ [allocate 4, store (.slot offset) .eax]
  | .declareString _ _ => []
  | .createObject _ _ fields offset =>
      allocate (4 * fields) :: zeroFields offset fields
  | .copyObject _ _ source fields offset =>
      source.fetch .eax ++ [allocate (4 * fields)] ++
        copyFields fields fun index => .slot (offset + 4 * index)
  | .assignNumber target value =>
      target.address ++ value.fetch .eax ++ [store (.offBy .ebx 0) .eax]
  | .assignObject target value fields =>
      target.address ++ value.fetch .eax ++ copyFields fields fun index => .field .ebx index
  | .call receiver method argument =>
      (match argument with
        | some value => value.fetch .eax ++ [pushRegister .eax]
        | none => []) ++
      receiver.address ++
      [pushRegister .eax, .call (Label.method receiver.owner method.name),
        release method.argumentBytes]
  | .print value =>
      value.fetch .eax ++ [pushRegister .eax, .call Label.printNumber, release 4]
  | .printText source =>
      [source.push, .call Label.printText, release 4]

end Command

/-! ### Blocks -/

structure Condition where
  left : Value
  relation : Comparison
  right : Value
deriving DecidableEq, Repr

/-- Compare, and jump if the comparison fails. -/
def Condition.jumpUnless (condition : Condition) (target : String) : List Instruction :=
  condition.left.fetch .eax ++ condition.right.fetch .ebx ++
    [.cmp (.register .eax) (.register .ebx), .jump (.fails condition.relation) target]

/-- What a block is for: to be run if the condition holds, or as long as it does. -/
inductive BranchKind where
  | conditional
  | loop
deriving DecidableEq, Repr

/-- The head of a block, with the number that its labels carry. -/
structure Branch where
  kind : BranchKind
  condition : Condition
  id : Nat
deriving DecidableEq, Repr

namespace Branch

def opening (branch : Branch) : List (Line Instruction) :=
  match branch.kind with
  | .conditional => Line.ofCode (branch.condition.jumpUnless (Label.elseOf branch.id))
  | .loop =>
      .label (Label.conditionOf branch.id) ::
        Line.ofCode (branch.condition.jumpUnless (Label.exitOf branch.id))

def closing (branch : Branch) : List (Line Instruction) :=
  match branch.kind with
  | .conditional => [.label (Label.elseOf branch.id)]
  | .loop =>
      [.instruction (.jump .always (Label.conditionOf branch.id)),
        .label (Label.exitOf branch.id)]

end Branch

/-! ### Bodies -/

/-- The statements of a block in their order, up to the release of its variables. -/
inductive Body where
  | finish (bytes : Nat)
  | simple (command : Command) (rest : Body)
  | branch (head : Branch) (inner rest : Body)
deriving DecidableEq, Repr

namespace Body

def releaseCode (bytes : Nat) : List Instruction :=
  if bytes = 0 then [] else [release bytes]

def code : Body → List (Line Instruction)
  | .finish bytes => Line.ofCode (releaseCode bytes)
  | .simple command rest => Line.ofCode command.code ++ rest.code
  | .branch head inner rest => head.opening ++ inner.code ++ head.closing ++ rest.code

end Body

/-! ### Routines -/

/-- A method, or the entry point if there is no class. -/
structure Routine where
  owner : Option String
  method : String
  body : Body
deriving DecidableEq, Repr

namespace Routine

/-- The code before the body.  The entry point has no caller whose frame it would have to keep. -/
def opening (routine : Routine) : List Instruction :=
  match routine.owner with
  | some _ => [pushRegister .ebp, copy .ebp .esp]
  | none => [copy .ebp .esp]

/-- The code behind the body.  The entry point runs into the way out. -/
def closing (routine : Routine) : List Instruction :=
  match routine.owner with
  | some _ => [.pop .ebp, .ret]
  | none => []

/-- The label that a routine is entered by. -/
def entryLabel (routine : Routine) : String :=
  Label.entry routine.owner routine.method

def listing (routine : Routine) : Listing Instruction :=
  ⟨routine.owner, routine.method,
    .label routine.entryLabel :: Line.ofCode routine.opening ++ routine.body.code ++
      Line.ofCode routine.closing⟩

end Routine

end ClassLang
