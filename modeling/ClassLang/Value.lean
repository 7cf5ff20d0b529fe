/-
  ClassLang/Value.lean
  ====================
  **Where values are, and the code that reaches them.**

  A `Place` is something that can be assigned to: a variable, a field of the
  receiver, or a field of an object variable.  A `Value` is what stands there, or a
  constant.  Numbers are handled by their value; objects and strings by their
  address, so fetching an object gives where it is.

  The address of a place is always computed in `EBX`.  A value can be fetched into
  any register, and the code that does it uses no other one, also where it has to
  follow a pointer: it loads the pointer into the register and then loads through
  it.
-/
import ClassLang.Assembly.Instruction
import ClassLang.Scope

namespace ClassLang

open Instruction (load set)

/-! ### Storage -/

/-- Where a variable is stored. -/
inductive Storage where
  | frame (offset : Nat)       -- that many bytes below the frame pointer
  | parameter
  | data (label : String)
deriving DecidableEq, Repr

namespace Storage

/-- Leave the address of an object or a string in a register.  A parameter holds that address, a
    variable on the stack is the object. -/
def objectAddress (storage : Storage) (target : Register) : List Instruction :=
  match storage with
  | .frame offset => [.lea target (.slot offset)]
  | .parameter => [load target .argument]
  | .data label => [.mov (.register target) (.label label)]

def fieldAddress (storage : Storage) (index : Nat) (target : Register) : List Instruction :=
  match storage with
  | .frame offset => [.lea target (.slot (offset + 4 * index))]
  | pointer =>
      pointer.objectAddress target ++
        if index = 0 then [] else [.lea target (.field target index)]

def fieldValue (storage : Storage) (index : Nat) (target : Register) : List Instruction :=
  match storage with
  | .frame offset => [load target (.slot (offset + 4 * index))]
  | pointer => pointer.objectAddress target ++ [load target (.field target index)]

end Storage

/-! ### Places -/

/-- Something that can be assigned to. -/
inductive Place where
  | binding (symbol : Symbol) (storage : Storage)
  | receiverField (field : String) (index : Nat)
  | objectField (owner : Symbol) (storage : Storage) (field : String) (index : Nat)
deriving DecidableEq, Repr

namespace Place

/-- The type of what a place holds.  All fields are numbers. -/
def type : Place → Ty
  | .binding symbol _ => symbol.type
  | .receiverField _ _ => .int
  | .objectField _ _ _ _ => .int

/-- Leave the address of a place in `EBX`. -/
def address : Place → List Instruction
  | .binding symbol storage =>
    match symbol.type, storage with
    | .int, .frame offset => [.lea .ebx (.slot offset)]
    | .int, .parameter => [.lea .ebx .argument]
    | _, _ => storage.objectAddress .ebx
  | .receiverField _ index =>
      load .ebx .receiver :: if index = 0 then [] else [.lea .ebx (.field .ebx index)]
  | .objectField _ storage _ index => storage.fieldAddress index .ebx

/-- Leave what a place holds in a register: a number itself, an object or a string by its
    address. -/
def fetch (place : Place) (target : Register) : List Instruction :=
  match place with
  | .binding symbol storage =>
    match symbol.type, storage with
    | .int, .frame offset => [load target (.slot offset)]
    | .int, .parameter => [load target .argument]
    | _, _ => storage.objectAddress target
  | .receiverField _ index => [load target .receiver, load target (.field target index)]
  | .objectField _ storage _ index => storage.fieldValue index target

def wording : Place → Wording
  | .binding symbol _ => .binding symbol.name
  | .receiverField field _ => .receiverField field
  | .objectField owner _ field _ => .objectField owner.name field

end Place

/-! ### Values -/

/-- A constant, or what a place holds. -/
inductive Value where
  | place (place : Place)
  | literal (n : Int)
deriving DecidableEq, Repr

namespace Value

def type : Value → Ty
  | .place p => p.type
  | .literal _ => .int

def fetch (value : Value) (target : Register) : List Instruction :=
  match value with
  | .place p => p.fetch target
  | .literal n => [set target n]

def wording : Value → Wording
  | .place p => p.wording
  | .literal n => .literal n

end Value

end ClassLang
