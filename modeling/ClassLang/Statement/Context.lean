/-
  ClassLang/Statement/Context.lean
  ================================
  **What names mean inside a method.**

  Everything that checking a statement needs to know besides the tokens: the
  classes above, the variables in sight, the class and the method the statement
  belongs to, and the strings stored so far.  Reading a statement never changes
  any of it.
-/
import ClassLang.DataSection
import ClassLang.Value

namespace ClassLang

/-- The surroundings of a statement. -/
structure Context where
  table : ClassTable
  scope : Scope
  owner : Option String       -- the class being defined
  method : String
  data : DataSection
deriving DecidableEq, Repr

namespace Context

def symbol (Γ : Context) (name : String) : Except Fault Symbol :=
  match Γ.scope.find? name with
  | some symbol => .ok symbol
  | none => .error (.undefined (.binding name Γ.method))

def stackOffset (Γ : Context) (name : String) : Except Fault Nat :=
  match Γ.scope.offset? Γ.table name with
  | some offset => .ok offset
  | none => .error (.undefined (.stackSlot name))

def storage (Γ : Context) (symbol : Symbol) : Except Fault Storage :=
  match symbol.role, symbol.label with
  | .parameter, _ => .ok .parameter
  | .binding, some label => .ok (.data label)
  | .binding, none => (Γ.stackOffset symbol.name).map .frame

/-- The class of the receiver; the entry point has none. -/
def receiverClass (Γ : Context) : Except Fault String :=
  match Γ.owner with
  | some owner => .ok owner
  | none => .error (.undefined .receiver)

def fieldIndex (Γ : Context) (owner field : String) : Except Fault Nat :=
  match Γ.table.fieldIndex? owner field with
  | some index => .ok index
  | none => .error (.undefined (.field owner field))

def signature (Γ : Context) (owner method : String) : Except Fault Signature :=
  match Γ.table.method? owner method with
  | some signature => .ok signature
  | none => .error (.undefined (.method owner method))

/-- The type that a lexeme names in a declaration. -/
def declaredType (Γ : Context) : Lexeme → Except Fault Ty
  | .keyword .intType => .ok .int
  | .keyword .stringType => .ok .string
  | .identifier name => Γ.table.resolveType name
  | found => .error (.expected .type found)

def bytesAt (Γ : Context) (label : String) : List UInt8 :=
  ((Γ.data.find? label).map (·.bytes)).getD []

end Context

end ClassLang
