/-
  ClassLang/Assembly/Printing.lean
  ================================
  **The two printing routines and the way out.**

  Every program comes with a routine that writes a number and one that writes a
  string, both to the standard output and both with a newline behind.  Each takes
  one pushed argument, leaves it for the caller to remove, and may change every
  register but the frame and stack pointers; generated code keeps nothing alive in
  the others across a call.
-/
import ClassLang.Assembly.Listing

namespace ClassLang.Printing

open Instruction (load store copy set allocate)

def storeByte (address : Register) (n : Int) : Instruction :=
  .mov (.memory (some .byte) (.offBy address 0)) (.immediate n)

/-- Write the argument in decimal.  The digits are made from the last to the first, going down
    from the newline that ends them in a buffer of the routine's own frame. -/
def number : List (Line Instruction) :=
  [ .label Label.printNumber,
    .instruction (.push (.register .ebp)),
    .instruction (copy .ebp .esp),
    .instruction (allocate 16),
    .instruction (load .eax (.offBy .ebp 8)),
    .instruction (.lea .ecx (.offBy .ebp (-1))),
    .instruction (storeByte .ecx 10),
    .instruction (.xor .esi (.register .esi)),
    .instruction (.cmp (.register .eax) (.immediate 0)),
    .instruction (.jump (.holds .greaterEqual) "_print_int_digits"),
    .instruction (set .esi 1),
    .instruction (.neg .eax),
    .label "_print_int_digits",
    .instruction (set .ebx 10),
    .label "_print_int_loop",
    .instruction (.xor .edx (.register .edx)),
    .instruction (.div .ebx),
    .instruction (.add .edx (.immediate 48)),
    .instruction (.dec .ecx),
    .instruction (.mov (.memory none (.offBy .ecx 0)) .dl),
    .instruction (.cmp (.register .eax) (.immediate 0)),
    .instruction (.jump (.fails .equal) "_print_int_loop"),
    .instruction (.cmp (.register .esi) (.immediate 0)),
    .instruction (.jump (.holds .equal) "_print_int_write"),
    .instruction (.dec .ecx),
    .instruction (storeByte .ecx 45),
    .label "_print_int_write",
    .instruction (copy .edx .ebp),
    .instruction (.sub .edx (.register .ecx)),
    .instruction (set .eax 4),
    .instruction (set .ebx 1),
    .instruction .systemCall,
    .instruction (copy .esp .ebp),
    .instruction (.pop .ebp),
    .instruction .ret ]

/-- Write the bytes at the argument up to the first zero.  Strings are stored with a newline and a
    zero at their end, so the newline is written too. -/
def string : List (Line Instruction) :=
  [ .label Label.printText,
    .instruction (.push (.register .ebp)),
    .instruction (copy .ebp .esp),
    .instruction (load .ecx (.offBy .ebp 8)),
    .instruction (.xor .edx (.register .edx)),
    .label "_print_string_length",
    .instruction (.cmp (.memory (some .byte) ⟨.ecx, some .edx, 0⟩) (.immediate 0)),
    .instruction (.jump (.holds .equal) "_print_string_write"),
    .instruction (.inc .edx),
    .instruction (.jump .always "_print_string_length"),
    .label "_print_string_write",
    .instruction (set .eax 4),
    .instruction (set .ebx 1),
    .instruction .systemCall,
    .instruction (.pop .ebp),
    .instruction .ret ]

/-- End the process with status 0. -/
def exit : List (Line Instruction) :=
  [ .instruction (set .eax 1),
    .instruction (.xor .ebx (.register .ebx)),
    .instruction .systemCall ]

end ClassLang.Printing
