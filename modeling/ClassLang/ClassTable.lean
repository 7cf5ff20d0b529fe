/-
  ClassLang/ClassTable.lean
  =========================
  **The classes known so far.**

  A class enters the table when its header is read, gathers its fields and then
  its methods, and is closed at its last brace; a closed class stays as it is.  So
  a type can only name a class whose header stands above, and everything that
  depends on the layout of a class is settled before it is used.

  Three collections are kept side by side: the classes by their names, the names in
  the order of their headers, and the names that are closed.  Every field is one word
  of four bytes, and the place of a field among the fields is its index in the object.

  Sizes are words of 32 bits (`slotSize`).  The pass over a program adds up numbers
  without a bound in their place (`slotBytes`): the two part ways only where the
  variables of a method take 2^32 bytes, and a program that declares so much has more
  than 2^30 lines of code.
-/
import ClassLang.Change

namespace ClassLang

/-! ### Signatures and class definitions -/

structure Parameter where
  name : String
  type : Ty
deriving DecidableEq, Repr

/-- The name of a method and its parameter, if it takes one. -/
structure Signature where
  name : String
  parameter : Option Parameter
deriving DecidableEq, Repr

/-- The bytes that a caller pushes: the receiver, and the argument if there is one. -/
def Signature.argumentBytes (signature : Signature) : Nat :=
  if signature.parameter.isSome then 8 else 4

/-- A class with its fields and methods in the order of their declaration. -/
structure ClassDef where
  name : String
  fields : List String
  methods : List Signature
deriving DecidableEq, Repr

namespace ClassDef

def fieldIndex? (definition : ClassDef) (field : String) : Option Nat :=
  definition.fields.findIdx? (· == field)

def method? (definition : ClassDef) (name : String) : Option Signature :=
  definition.methods.find? (·.name == name)

/-- The bytes that an object takes: one word for each field. -/
def instanceBytes (definition : ClassDef) : Nat :=
  4 * definition.fields.length

/-- The bytes that an object takes, as a word. -/
def instanceSize (definition : ClassDef) : UInt32 :=
  4 * UInt32.ofNat definition.fields.length

end ClassDef

/-! ### The table -/

/-- The classes, found by their names; the names of the classes in the order of their headers; and
    the names that are closed. -/
structure ClassTable where
  classes : List ClassDef
  order : List String
  closed : List String
deriving DecidableEq, Repr

namespace ClassTable

def empty : ClassTable := ⟨[], [], []⟩

def find? (table : ClassTable) (name : String) : Option ClassDef :=
  table.classes.find? (·.name == name)

/-- The classes in the order of their headers. -/
def inOrder (table : ClassTable) : List ClassDef :=
  table.order.filterMap table.find?

/-- Put a class in the place of the one that has its name. -/
def replace (table : ClassTable) (definition : ClassDef) : ClassTable :=
  { table with
    classes := table.classes.map fun old =>
      if old.name == definition.name then definition else old }

/-! ### Changes of the table -/

/-- Enter a new class, still without fields and methods. -/
def entering (name : String) : Change ClassTable Unit := do
  if ((← get).find? name).isSome then
    throw (.duplicate (.className name))
  modify fun table => { table with classes := table.classes ++ [⟨name, [], []⟩] }
  modify fun table => { table with order := table.order ++ [name] }

/-- The class of a given name, as long as it may still grow. -/
def opening (name : String) : Change ClassTable ClassDef := do
  if (← get).closed.contains name then
    throw (.structural (.closedClass name))
  match (← get).find? name with
  | some definition => pure definition
  | none => throw (.undefined (.className name))

/-- Put a grown class in the place of the one of a given name, unless that one knows what is new. -/
def growing (name : String) (knows : ClassDef → Bool) (fault : Fault)
    (grown : ClassDef → ClassDef) : Change ClassTable Unit := do
  let definition ← opening name
  if knows definition then
    throw fault
  modify (·.replace (grown definition))

/-- Add a field behind the fields that a class has. -/
def addingField (owner field : String) : Change ClassTable Unit :=
  growing owner (fun definition => (definition.fieldIndex? field).isSome)
    (.duplicate (.field owner field))
    fun definition => { definition with fields := definition.fields ++ [field] }

/-- Add a method behind the methods that a class has. -/
def addingMethod (owner : String) (signature : Signature) : Change ClassTable Unit :=
  growing owner (fun definition => (definition.method? signature.name).isSome)
    (.duplicate (.method owner signature.name))
    fun definition => { definition with methods := definition.methods ++ [signature] }

/-- Close a class.  A name may be closed whether or not a class has it. -/
def close (table : ClassTable) (name : String) : ClassTable :=
  { table with closed := name :: table.closed }

def declareClass (table : ClassTable) (name : String) : Except Fault ClassTable :=
  (entering name).result table

def addField (table : ClassTable) (owner field : String) : Except Fault ClassTable :=
  (addingField owner field).result table

def addMethod (table : ClassTable) (owner : String) (signature : Signature) :
    Except Fault ClassTable :=
  (addingMethod owner signature).result table

/-- What can be done to a table. -/
inductive Operation where
  | declareClass (name : String)
  | addField (owner field : String)
  | addMethod (owner : String) (signature : Signature)
  | close (name : String)
deriving DecidableEq, Repr

def Operation.change : Operation → Change ClassTable Unit
  | .declareClass name => entering name
  | .addField owner field => addingField owner field
  | .addMethod owner signature => addingMethod owner signature
  | .close name => modify (·.close name)

/-! ### What is in the table -/

/-- The type that a word names: a built-in type, or a class whose header stands above. -/
def resolveType (table : ClassTable) (name : String) : Except Fault Ty :=
  match Ty.ofText name with
  | .object className =>
    match table.find? className with
    | some _ => .ok (.object className)
    | none => .error (.undefined (.type className))
  | builtin => .ok builtin

def fieldIndex? (table : ClassTable) (owner field : String) : Option Nat :=
  (table.find? owner).bind (·.fieldIndex? field)

def method? (table : ClassTable) (owner name : String) : Option Signature :=
  (table.find? owner).bind (·.method? name)

/-- How many fields the objects of a class have; none if there is no such class. -/
def fieldCount (table : ClassTable) (name : String) : Nat :=
  ((table.find? name).map (·.fields.length)).getD 0

/-- The bytes that a variable of a type takes on the stack.  Strings live in the data section and
    take none. -/
def slotBytes (table : ClassTable) : Ty → Nat
  | .int => 4
  | .string => 0
  | .object name => ((table.find? name).map ClassDef.instanceBytes).getD 0

/-- The bytes that a variable of a type takes on the stack, as a word. -/
def slotSize (table : ClassTable) : Ty → UInt32
  | .int => 4
  | .string => 0
  | .object name => ((table.find? name).map ClassDef.instanceSize).getD 0

end ClassTable

end ClassLang
