/-
  ClassLang/Proofs/Machine.lean
  =============================
  **The machine that runs generated code.**

  Registers, a memory of words, the comparison that a conditional jump goes by, and the
  output so far.  The stack has no end, so addresses are integers without a bound.
  Code is a list of lines, and the place in it is a line number; a label is a line that
  does nothing, and the return address that a call pushes is the number of the next
  line.

  The two printing routines are not run but taken as they are used: each writes the
  word on top of the stack, keeps the frame and stack pointers and the memory from the
  stack pointer upwards, and may change all else.  What it does change, where data
  entries lie, and which bytes a string argument stands for is up to a `Platform`.
-/
import Mathlib.Logic.Function.Basic
import Mathlib.Logic.Relation
import ClassLang.Body
import ClassLang.Proofs.Interpreter

namespace ClassLang

/-! ### States -/

/-- The state of the machine.  Arithmetic spoils the comparison. -/
structure Machine where
  registers : Register → Int
  memory : Int → Int
  compared : Option (Int × Int)
  output : List Output

namespace Machine

def set (M : Machine) (r : Register) (w : Int) : Machine :=
  { M with registers := Function.update M.registers r w }

def write (M : Machine) (a w : Int) : Machine :=
  { M with memory := Function.update M.memory a w }

def push (M : Machine) (w : Int) : Machine :=
  (M.set .esp (M.registers .esp - 4)).write (M.registers .esp - 4) w

def spoil (M : Machine) : Machine := { M with compared := none }

def locate (M : Machine) (address : Address) : Int :=
  M.registers address.base + (address.index.map M.registers).getD 0 + address.displacement

variable (M : Machine) (r r' : Register) (a w w' : Int)

@[simp] theorem set_registers_self : (M.set r w).registers r = w := by simp [set]

@[simp] theorem set_registers_of_ne (h : r' ≠ r) : (M.set r w).registers r' = M.registers r' := by
  simp [set, h]

@[simp] theorem set_memory : (M.set r w).memory = M.memory := rfl

@[simp] theorem set_output : (M.set r w).output = M.output := rfl

@[simp] theorem set_compared : (M.set r w).compared = M.compared := rfl

@[simp] theorem set_set : (M.set r w).set r w' = M.set r w' := by simp [set]

@[simp] theorem write_registers : (M.write a w).registers = M.registers := rfl

@[simp] theorem write_memory : (M.write a w).memory = Function.update M.memory a w := rfl

@[simp] theorem write_output : (M.write a w).output = M.output := rfl

@[simp] theorem spoil_registers : M.spoil.registers = M.registers := rfl

@[simp] theorem spoil_memory : M.spoil.memory = M.memory := rfl

@[simp] theorem spoil_output : M.spoil.output = M.output := rfl

@[simp] theorem push_esp : (M.push w).registers .esp = M.registers .esp - 4 := by simp [push]

@[simp] theorem push_of_ne (h : r ≠ .esp) : (M.push w).registers r = M.registers r := by
  simp [push, h]

@[simp] theorem push_memory :
    (M.push w).memory = Function.update M.memory (M.registers .esp - 4) w := rfl

@[simp] theorem push_output : (M.push w).output = M.output := rfl

@[simp] theorem locate_offBy (d : Int) : M.locate (.offBy r d) = M.registers r + d := by
  simp [locate, Address.offBy]

@[simp] theorem locate_slot (offset : Nat) :
    M.locate (.slot offset) = M.registers .ebp - offset := by
  rw [Address.slot, locate_offBy]
  omega

@[simp] theorem locate_receiver : M.locate .receiver = M.registers .ebp + 8 := by
  rw [Address.receiver, locate_offBy]

@[simp] theorem locate_argument : M.locate .argument = M.registers .ebp + 12 := by
  rw [Address.argument, locate_offBy]

@[simp] theorem locate_field (index : Nat) :
    M.locate (.field r index) = M.registers r - 4 * index := by
  rw [Address.field, locate_offBy]
  omega

end Machine

/-- What lies outside the generated code. -/
structure Platform where
  labels : String → Int                      -- where the data entries lie
  text : (Int → Int) → Int → List UInt8      -- the string at an address, given the memory
  scramble : Machine → Machine               -- what a printing routine leaves behind

namespace Platform

/-- A printing routine has written something. -/
def print (P : Platform) (M : Machine) (o : Output) : Machine where
  registers r := if r = .ebp ∨ r = .esp then M.registers r else (P.scramble M).registers r
  memory a := if M.registers .esp ≤ a then M.memory a else (P.scramble M).memory a
  compared := (P.scramble M).compared
  output := M.output ++ [o]

/-! ### Instructions -/

/-- The word that an operand stands for.  Operands for single bytes are not used here. -/
def value? (P : Platform) (M : Machine) : Operand → Option Int
  | .register r => some (M.registers r)
  | .dl => none
  | .immediate n => some n
  | .label name => some (P.labels name)
  | .memory (some .byte) _ => none
  | .memory _ address => some (M.memory (M.locate address))

/-- What an instruction does that goes on to the next line. -/
def effect? (P : Platform) (M : Machine) : Instruction → Option Machine
  | .mov (.register r) source => (P.value? M source).map (M.set r)
  | .mov (.memory (some .byte) _) _ => none
  | .mov (.memory _ address) source => (P.value? M source).map (M.write (M.locate address))
  | .lea r address => some (M.set r (M.locate address))
  | .push source => (P.value? M source).map M.push
  | .pop r => some ((M.set .esp (M.registers .esp + 4)).set r (M.memory (M.registers .esp)))
  | .add r source => (P.value? M source).map fun w => (M.set r (M.registers r + w)).spoil
  | .sub r source => (P.value? M source).map fun w => (M.set r (M.registers r - w)).spoil
  | .cmp left right => do
    let l ← P.value? M left
    let r ← P.value? M right
    some { M with compared := some (l, r) }
  | _ => none

variable (P : Platform) (M : Machine) (r r' : Register) (address : Address) (bytes : Nat)

@[simp] theorem effect?_load :
    P.effect? M (.load r address) = some (M.set r (M.memory (M.locate address))) := rfl

@[simp] theorem effect?_store :
    P.effect? M (.store address r) = some (M.write (M.locate address) (M.registers r)) := rfl

@[simp] theorem effect?_copy : P.effect? M (.copy r r') = some (M.set r (M.registers r')) := rfl

@[simp] theorem effect?_allocate :
    P.effect? M (.allocate bytes) = some (M.set .esp (M.registers .esp - bytes)).spoil := rfl

@[simp] theorem effect?_release :
    P.effect? M (.release bytes) = some (M.set .esp (M.registers .esp + bytes)).spoil := rfl

@[simp] theorem effect?_pushRegister :
    P.effect? M (.pushRegister r) = some (M.push (M.registers r)) := rfl

end Platform

/-- Whether a jump is taken. -/
def Jump.taken? (compared : Option (Int × Int)) : Jump → Option Bool
  | .always => some true
  | .holds relation => compared.map fun c => relation.holds c.1 c.2
  | .fails relation => compared.map fun c => !relation.holds c.1 c.2

def lineOf? (lines : List (Line Instruction)) (name : String) : Option Nat :=
  lines.findIdx? (· == .label name)

namespace Platform

/-- One step of the machine, which stands before a line of the code. -/
def step? (P : Platform) (lines : List (Line Instruction)) :
    Machine × Nat → Option (Machine × Nat)
  | (M, pc) =>
    match lines[pc]? with
    | none => none
    | some (.label _) => some (M, pc + 1)
    | some (.instruction (.jump condition target)) => do
      if ← condition.taken? M.compared then (lineOf? lines target).map fun line => (M, line)
      else some (M, pc + 1)
    | some (.instruction (.call target)) =>
      let argument := M.memory (M.registers .esp)
      if target = Label.printNumber then some (P.print M (.number argument), pc + 1)
      else if target = Label.printText then
        some (P.print M (.text (P.text M.memory argument)), pc + 1)
      else (lineOf? lines target).map fun line => (M.push (pc + 1 : Nat), line)
    | some (.instruction .ret) =>
      some (M.set .esp (M.registers .esp + 4), (M.memory (M.registers .esp)).toNat)
    | some (.instruction code) => (P.effect? M code).map fun M' => (M', pc + 1)

/-- One state of a run leads to another. -/
def Reaches (P : Platform) (lines : List (Line Instruction)) :
    Machine × Nat → Machine × Nat → Prop :=
  Relation.ReflTransGen fun c c' => P.step? lines c = some c'

/-! ### Code without jumps -/

def exec? (P : Platform) : Machine → List Instruction → Option Machine
  | M, [] => some M
  | M, code :: rest => (P.effect? M code).bind fun M' => P.exec? M' rest

theorem exec?_append (P : Platform) (M : Machine) (code code' : List Instruction) :
    P.exec? M (code ++ code') = (P.exec? M code).bind fun M' => P.exec? M' code' := by
  induction code generalizing M with
  | nil => rfl
  | cons c code ih =>
    rw [List.cons_append, exec?, exec?, Option.bind_assoc]
    congr 1
    funext M'
    exact ih M'

theorem exec?_append_of_eq {P : Platform} {M M' : Machine} {code : List Instruction}
    (h : P.exec? M code = some M') (code' : List Instruction) :
    P.exec? M (code ++ code') = P.exec? M' code' := by
  rw [exec?_append, h, Option.bind_some]

end Platform

/-! ### Pieces of code -/

/-- Lines stand in the code from a line number on. -/
def CodeAt (lines : List (Line Instruction)) (pc : Nat) (code : List (Line Instruction)) : Prop :=
  code <+: lines.drop pc

namespace CodeAt

variable {lines code code' : List (Line Instruction)} {pc : Nat}

theorem left (h : CodeAt lines pc (code ++ code')) : CodeAt lines pc code :=
  (List.prefix_append code code').trans h

theorem right (h : CodeAt lines pc (code ++ code')) : CodeAt lines (pc + code.length) code' := by
  obtain ⟨rest, hrest⟩ := h
  refine ⟨rest, ?_⟩
  rw [← List.drop_drop, ← hrest, List.append_assoc, List.drop_left]

theorem head {line : Line Instruction} (h : CodeAt lines pc (line :: code)) :
    lines[pc]? = some line := by
  obtain ⟨rest, hrest⟩ := h
  rw [← List.head?_drop, ← hrest]
  rfl

theorem tail {line : Line Instruction} (h : CodeAt lines pc (line :: code)) :
    CodeAt lines (pc + 1) code :=
  @right lines [line] code pc h

end CodeAt

namespace Platform

variable {P : Platform} {lines : List (Line Instruction)} {M M' : Machine} {pc : Nat}

/-- An instruction that goes on to the next line is a step. -/
theorem step?_of_effect {code : Instruction} (hline : lines[pc]? = some (.instruction code))
    (h : P.effect? M code = some M') : P.step? lines (M, pc) = some (M', pc + 1) := by
  rw [step?, hline]
  cases code <;> first | (cases h; done) | simp [h]

theorem reaches_step {c c' c'' : Machine × Nat} (h : P.step? lines c = some c')
    (h' : P.Reaches lines c' c'') : P.Reaches lines c c'' :=
  Relation.ReflTransGen.head h h'

/-- Instructions that go on from line to line are run where they stand. -/
theorem reaches_of_exec? {code : List Instruction} (hcode : CodeAt lines pc (Line.ofCode code))
    (h : P.exec? M code = some M') : P.Reaches lines (M, pc) (M', pc + code.length) := by
  induction code generalizing M pc with
  | nil =>
    cases h
    exact .refl
  | cons c code ih =>
    rw [exec?, Option.bind_eq_some_iff] at h
    obtain ⟨M₁, hfirst, hrest⟩ := h
    have hreach := ih hcode.tail hrest
    rw [List.length_cons, Nat.add_comm code.length 1, ← Nat.add_assoc]
    exact reaches_step (step?_of_effect hcode.head hfirst) hreach

theorem reaches_label {name : String} (hline : lines[pc]? = some (.label name)) :
    P.Reaches lines (M, pc) (M, pc + 1) :=
  .single (by rw [step?, hline])

end Platform

/-! ### Labels -/

/-- A label that is defined once is found where it is. -/
theorem lineOf?_eq_some {lines : List (Line Instruction)} {k : Nat} {name : String}
    (hunique : ∀ k', lines[k']? = some (.label name) → k' = k)
    (h : lines[k]? = some (.label name)) : lineOf? lines name = some k := by
  unfold lineOf?
  cases hfind : lines.findIdx? (· == .label name) with
  | none =>
    rw [List.findIdx?_eq_none_iff] at hfind
    have hne := hfind _ (List.mem_of_getElem? h)
    simp at hne
  | some k' =>
    rw [List.findIdx?_eq_some_iff_getElem] at hfind
    obtain ⟨hlt, heq, -⟩ := hfind
    rw [beq_iff_eq] at heq
    rw [hunique k' (by rw [List.getElem?_eq_getElem hlt, heq])]

end ClassLang
