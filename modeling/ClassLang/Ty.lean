/-
  ClassLang/Ty.lean
  =================
  **Types of the class language.**

  A value is a number, a string or an object of a class; there is nothing else.  A
  class is known by its name.
-/

namespace ClassLang

/-- The type of a variable, a parameter or a value. -/
inductive Ty where
  | int
  | string
  | object (className : String)
deriving DecidableEq, Repr

def Ty.text : Ty → String
  | .int => "int"
  | .string => "string"
  | .object className => className

/-- The type that a word stands for when every other word is taken for a class. -/
def Ty.ofText : String → Ty
  | "int" => .int
  | "string" => .string
  | className => .object className

end ClassLang
