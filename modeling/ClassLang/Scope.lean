/-
  ClassLang/Scope.lean
  ====================
  **The variables in sight.**

  Each method has a scope of its own: a frame of variables for its body, one more
  on top for every block being read, and the parameter.  Looking a name up goes
  from the innermost frame outwards and comes to the parameter last.  A name is
  free to declare unless the innermost frame has it; in the body of the method the
  parameter counts as declared too.

  Variables lie below the frame pointer in the order of their declaration, the
  outermost frame first, the first of them four bytes down.  The parameter lies
  above the frame pointer and has no part in that order.

  Offsets and sizes are words of 32 bits, and their sums wrap around (`frameOffset?`,
  `frameSize`).  The pass over a program adds up numbers without a bound in their place
  (`offset?`, `frameBytes`), which is the same as long as the sums stay below 2^32.

  The innermost frame is a field of its own, so a scope always has one.
-/
import ClassLang.ClassTable

namespace ClassLang

/-! ### Symbols -/

/-- What a name stands for in a method. -/
inductive Role where
  | parameter
  | binding
deriving DecidableEq, Repr

/-- A parameter or a variable.  Only variables for strings have a label, that of their entry in
    the data section. -/
structure Symbol where
  name : String
  type : Ty
  role : Role
  label : Option String
deriving DecidableEq, Repr

namespace Symbol

def onStack (name : String) (type : Ty) : Symbol := ⟨name, type, .binding, none⟩

/-- A string variable, stored in the data section under a label. -/
def inData (name label : String) : Symbol := ⟨name, .string, .binding, some label⟩

def ofParameter (parameter : Parameter) : Symbol :=
  ⟨parameter.name, parameter.type, .parameter, none⟩

end Symbol

/-! ### Frames -/

/-- The variables of one block in the order of their declaration. -/
abbrev Frame := List Symbol

namespace Frame

def find? (frame : Frame) (name : String) : Option Symbol :=
  List.find? (·.name == name) frame

def bytes (table : ClassTable) : Frame → Nat
  | [] => 0
  | symbol :: rest => table.slotBytes symbol.type + bytes table rest

/-- Add the slots of variables to a sum, one after the other. -/
def addSizes (slot : Ty → UInt32) (sum : UInt32) (vs : List Symbol) : UInt32 :=
  vs.foldl (fun sum symbol => sum + slot symbol.type) sum

end Frame

/-! ### Scopes -/

/-- The innermost frame, the enclosing frames from the inside out, and the parameter. -/
structure Scope where
  frame : Frame
  enclosing : List Frame
  parameter : Option Symbol
deriving DecidableEq, Repr

namespace Scope

def empty : Scope := ⟨[], [], none⟩

def frames (scope : Scope) : List Frame :=
  scope.frame :: scope.enclosing

def depth (scope : Scope) : Nat :=
  scope.frames.length

def push (scope : Scope) : Scope :=
  { scope with frame := [], enclosing := scope.frame :: scope.enclosing }

/-- Leave a block.  The frame of the method body stays. -/
def pop (scope : Scope) : Scope :=
  match scope.enclosing with
  | [] => scope
  | frame :: enclosing => { scope with frame, enclosing }

def setParameter (scope : Scope) (symbol : Symbol) : Scope :=
  { scope with parameter := some symbol }

/-- The parameter, if it has the given name. -/
def parameter? (scope : Scope) (name : String) : Option Symbol :=
  scope.parameter.filter (·.name == name)

/-- What a name is declared as in the innermost frame; in the method body the parameter counts. -/
def findInnermost? (scope : Scope) (name : String) : Option Symbol :=
  (scope.frame.find? name).or
    (if scope.enclosing.isEmpty then scope.parameter? name else none)

/-- What a name stands for: the innermost variable of that name, or else the parameter. -/
def find? (scope : Scope) (name : String) : Option Symbol :=
  (scope.frames.findSome? (·.find? name)).or (scope.parameter? name)

/-! ### Changes of a scope -/

/-- Declare a variable in the innermost frame, behind those that it has. -/
def declaring (symbol : Symbol) : Change Scope Unit := do
  if ((← get).findInnermost? symbol.name).isSome then
    throw (.duplicate (.binding symbol.name))
  modify fun scope => { scope with frame := scope.frame ++ [symbol] }

def declare (scope : Scope) (symbol : Symbol) : Except Fault Scope :=
  (declaring symbol).result scope

/-- What can be done to a scope. -/
inductive Operation where
  | clear
  | push
  | pop
  | parameter (symbol : Symbol)
  | declare (symbol : Symbol)
deriving DecidableEq, Repr

def Operation.change : Operation → Change Scope Unit
  | .clear => set empty
  | .push => modify (·.push)
  | .pop => modify (·.pop)
  | .parameter symbol => modify (·.setParameter symbol)
  | .declare symbol => declaring symbol

/-! ### Places on the stack -/

def framesBytes (table : ClassTable) : List Frame → Nat
  | [] => 0
  | frame :: enclosing => Frame.bytes table frame + framesBytes table enclosing

/-- The distance below the frame pointer of the innermost variable of a name, for frames given
    from the inside out. -/
def offsetIn? (table : ClassTable) (name : String) : List Frame → Option Nat
  | [] => none
  | frame :: enclosing =>
    match frame.findIdx? (·.name == name) with
    | some index =>
        some (4 + framesBytes table enclosing + Frame.bytes table (frame.take index))
    | none => offsetIn? table name enclosing

/-- The distance of a variable below the frame pointer.  There is none for the parameter and for
    names without a meaning. -/
def offset? (scope : Scope) (table : ClassTable) (name : String) : Option Nat :=
  offsetIn? table name scope.frames

def frameBytes (scope : Scope) (table : ClassTable) : Nat :=
  Frame.bytes table scope.frame

/-! ### Places as words -/

/-- The variables before the innermost one of a name, in the order of their declaration, for frames
    given from the inside out. -/
def before? (name : String) : List Frame → Option (List Symbol)
  | [] => none
  | frame :: enclosing =>
    match frame.findIdx? (·.name == name) with
    | some index => some (enclosing.reverse.flatten ++ frame.take index)
    | none => before? name enclosing

/-- The distance of a variable below the frame pointer: four bytes, and the slots of the variables
    before it. -/
def frameOffset? (scope : Scope) (slot : Ty → UInt32) (name : String) : Option UInt32 :=
  (before? name scope.frames).map (Frame.addSizes slot 4)

/-- The bytes of the innermost frame. -/
def frameSize (scope : Scope) (slot : Ty → UInt32) : UInt32 :=
  Frame.addSizes slot 0 scope.frame

end Scope

end ClassLang
