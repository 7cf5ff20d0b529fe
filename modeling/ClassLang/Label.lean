/-
  ClassLang/Label.lean
  ====================
  **Labels of the generated code.**

  Labels come from four sources: the fixed ones of the entry point and the printing
  routines, numbered ones for control flow, one for each method, and one for each
  string.  Method labels are made of names that the program chooses, so a method
  could be named into any of the other families; `isGenerated` tells the labels
  that a method must not take.
-/

namespace ClassLang.Label

/-! ### Fixed labels -/

def entryPoint : String := "_main"

def printNumber : String := "_print_int"

def printText : String := "_print_string"

/-- The labels of the entry point and of the printing routines with their inner labels. -/
def fixed : List String :=
  [entryPoint, printNumber, "_print_int_digits", "_print_int_loop", "_print_int_write", printText,
    "_print_string_length", "_print_string_write"]

/-! ### Control flow -/

def elseStem : String := "_else_statement_"

def conditionStem : String := "_while_condition_"

def exitStem : String := "_while_exit_"

/-- The label behind the conditional block with a number. -/
def elseOf (id : Nat) : String := elseStem ++ toString id

/-- The label before the condition of the loop with a number. -/
def conditionOf (id : Nat) : String := conditionStem ++ toString id

/-- The label behind the loop with a number. -/
def exitOf (id : Nat) : String := exitStem ++ toString id

/-- The label consists of the stem and one or more digits. -/
def isNumbered (stem label : String) : Bool :=
  let digits := label.toList.drop stem.toList.length
  stem.toList.isPrefixOf label.toList && !digits.isEmpty && digits.all Char.isDigit

/-- Labels that the generated code uses on its own account, whatever the program says. -/
def isGenerated (label : String) : Bool :=
  fixed.contains label ||
    [elseStem, conditionStem, exitStem].any fun stem => isNumbered stem label

/-! ### Labels made of names -/

def method (owner name : String) : String := "_" ++ owner ++ "_" ++ name

/-- The label of a routine: that of the method, or of the entry point if there is no class. -/
def entry (owner : Option String) (name : String) : String :=
  match owner with
  | some owner => method owner name
  | none => entryPoint

/-- The label wanted for the string of a name in a method, or in the entry point. -/
def data (owner : Option String) (routine name : String) : String :=
  match owner with
  | some owner => owner ++ "_" ++ routine ++ "_" ++ name
  | none => routine ++ "_" ++ name

end ClassLang.Label
