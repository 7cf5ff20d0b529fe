/-
  ClassLang/Assembly/Instruction.lean
  ===================================
  **Instructions of the 32-bit machine.**

  Code is kept as data until it is laid out: registers, addresses, operands and
  instructions are types, and each has one way of being written.  Only the part of
  the machine that generated code and the two printing routines use is here.

  A conditional jump names a comparison and whether it is taken when that holds or
  when it fails, so a test and the jump around its block share one comparison.
-/
import ClassLang.Token.Basic

namespace ClassLang

/-! ### Registers and addresses -/

/-- The registers that generated code uses. -/
inductive Register where
  | eax
  | ebx
  | ecx
  | edx
  | esi
  | ebp     -- frame pointer
  | esp     -- stack pointer
deriving DecidableEq, Repr

def Register.text : Register → String
  | .eax => "EAX"
  | .ebx => "EBX"
  | .ecx => "ECX"
  | .edx => "EDX"
  | .esi => "ESI"
  | .ebp => "EBP"
  | .esp => "ESP"

/-- An address: a register, plus another one if given, plus a displacement. -/
structure Address where
  base : Register
  index : Option Register
  displacement : Int
deriving DecidableEq, Repr

namespace Address

def offBy (base : Register) (displacement : Int) : Address := ⟨base, none, displacement⟩

/-- A base and a displacement between brackets; a displacement of zero is left out, and a negative
    one is subtracted. -/
def bracketed (base : String) (displacement : Int) : String :=
  if displacement = 0 then s!"[{base}]"
  else if 0 < displacement then s!"[{base} + {displacement}]"
  else s!"[{base} - {-displacement}]"

def text (address : Address) : String :=
  let base :=
    match address.index with
    | none => address.base.text
    | some index => s!"{address.base.text} + {index.text}"
  bracketed base address.displacement

/-- The stack slot at a distance below the frame pointer. -/
def slot (offset : Nat) : Address := offBy .ebp (-(offset : Int))

def receiver : Address := offBy .ebp 8

def argument : Address := offBy .ebp 12

/-- The field with an index, in the object whose address a register holds.  Fields grow downwards
    from the address of the object. -/
def field (object : Register) (index : Nat) : Address := offBy object (-4 * (index : Int))

end Address

/-! ### Operands and instructions -/

inductive Width where
  | byte
  | dword
deriving DecidableEq, Repr

def Width.text : Width → String
  | .byte => "BYTE"
  | .dword => "DWORD"

inductive Operand where
  | register (r : Register)
  | dl                                                 -- the low byte of EDX
  | immediate (n : Int)
  | label (name : String)                              -- the address of a data entry
  | memory (width : Option Width) (address : Address)
deriving DecidableEq, Repr

def Operand.text : Operand → String
  | .register r => r.text
  | .dl => "DL"
  | .immediate n => toString n
  | .label name => name
  | .memory none address => address.text
  | .memory (some width) address => s!"{width.text} {address.text}"

/-- When a jump is taken, judged by the comparison done last. -/
inductive Jump where
  | always
  | holds (relation : Comparison)
  | fails (relation : Comparison)
deriving DecidableEq, Repr

/-- The letters of a comparison in the name of a jump. -/
def Comparison.condition : Comparison → String
  | .equal => "E"
  | .greater => "G"
  | .greaterEqual => "GE"
  | .less => "L"
  | .lessEqual => "LE"

def Jump.text : Jump → String
  | .always => "JMP"
  | .holds relation => "J" ++ relation.condition
  | .fails relation => "JN" ++ relation.condition

inductive Instruction where
  | mov (target source : Operand)
  | lea (target : Register) (address : Address)
  | push (source : Operand)
  | pop (target : Register)
  | add (target : Register) (source : Operand)
  | sub (target : Register) (source : Operand)
  | xor (target : Register) (source : Operand)
  | cmp (left right : Operand)
  | neg (target : Register)
  | div (divisor : Register)
  | inc (target : Register)
  | dec (target : Register)
  | jump (condition : Jump) (target : String)
  | call (target : String)
  | ret
  | systemCall
deriving DecidableEq, Repr

namespace Instruction

def text : Instruction → String
  | .mov target source => s!"MOV {target.text}, {source.text}"
  | .lea target address => s!"LEA {target.text}, {address.text}"
  | .push source => s!"PUSH {source.text}"
  | .pop target => s!"POP {target.text}"
  | .add target source => s!"ADD {target.text}, {source.text}"
  | .sub target source => s!"SUB {target.text}, {source.text}"
  | .xor target source => s!"XOR {target.text}, {source.text}"
  | .cmp left right => s!"CMP {left.text}, {right.text}"
  | .neg target => s!"NEG {target.text}"
  | .div divisor => s!"DIV {divisor.text}"
  | .inc target => s!"INC {target.text}"
  | .dec target => s!"DEC {target.text}"
  | .jump condition target => s!"{condition.text} {target}"
  | .call target => s!"CALL {target}"
  | .ret => "RET"
  | .systemCall => "INT 0x80"

/-! ### Short forms -/

def load (target : Register) (address : Address) : Instruction :=
  .mov (.register target) (.memory none address)

def store (address : Address) (source : Register) : Instruction :=
  .mov (.memory none address) (.register source)

def copy (target source : Register) : Instruction :=
  .mov (.register target) (.register source)

def set (target : Register) (n : Int) : Instruction :=
  .mov (.register target) (.immediate n)

/-- Take bytes for variables off the stack pointer. -/
def allocate (bytes : Nat) : Instruction :=
  .sub .esp (.immediate bytes)

/-- Give bytes back to the stack pointer. -/
def release (bytes : Nat) : Instruction :=
  .add .esp (.immediate bytes)

def pushRegister (source : Register) : Instruction :=
  .push (.register source)

end Instruction

end ClassLang
