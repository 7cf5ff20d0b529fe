/-
  ClassLang/Proofs/StaticRules.lean
  =================================
  **Which program trees are programs.**

  The grammar leaves open what names stand for.  The rules here close that gap, and
  they say nothing about storage, code or the order in which anything is looked up: a
  `Sight` is what a statement can refer to, and each rule is a condition on a piece of
  the tree and the sight in which it stands.  Declarations widen the sight for the
  rest of their block, a block has the sight of the statement it belongs to with a
  frame of its own, and the sight of a method is given by the classes and methods
  above it.

  One rule is about labels and not about names.  Every method has a label made of two
  names, and so has every string, so two of them can want the same one.  A string
  gives way, a method does not: `LabelsFit` follows the labels through the program in
  the order in which they are given out.
-/
import ClassLang.Proofs.DataLabels
import ClassLang.Proofs.Grammar

namespace ClassLang

open DataSection (IsFirstFree)

/-! ### What declarations say -/

/-- The type that a tree names, where every name stands for a class. -/
def Tree.TypeName.type : Tree.TypeName → Ty
  | .int => .int
  | .string => .string
  | .named c => .object c

def Tree.Method.signature (m : Tree.Method) : Signature :=
  ⟨m.name, m.parameter.map fun p => ⟨p.name, p.type.type⟩⟩

/-- A class with some of its methods. -/
def Tree.Class.withMethods (c : Tree.Class) (methods : List Tree.Method) : ClassDef :=
  ⟨c.name, c.fields, methods.map Tree.Method.signature⟩

def Tree.Class.definition (c : Tree.Class) : ClassDef := c.withMethods c.methods

/-! ### What is in sight -/

/-- What a statement can refer to. -/
structure Sight where
  classes : List ClassDef              -- those above, the last one as far as it has been read
  owner : Option String                -- the class that the statement belongs to
  parameter : Option Parameter
  frame : List (String × Ty)           -- the variables of the innermost block
  enclosing : List (List (String × Ty))
deriving DecidableEq, Repr

namespace Sight

def inFrames? (E : Sight) (x : String) : Option Ty :=
  ((E.frame ++ E.enclosing.flatten).find? (·.1 == x)).map (·.2)

/-- The type of a name: that of the innermost variable, or else of the parameter. -/
def type? (E : Sight) (x : String) : Option Ty :=
  (E.inFrames? x).or ((E.parameter.filter (·.name == x)).map (·.type))

def HasField (E : Sight) (c f : String) : Prop :=
  ∃ d ∈ E.classes, d.name = c ∧ f ∈ d.fields

def HasMethod (E : Sight) (c m : String) (parameter : Option Parameter) : Prop :=
  ∃ d ∈ E.classes, d.name = c ∧ ⟨m, parameter⟩ ∈ d.methods

/-- The name can be declared: no variable of the innermost block has it, and in the body of the
    method the parameter does not have it either. -/
def Free (E : Sight) (x : String) : Prop :=
  (∀ v ∈ E.frame, v.1 ≠ x) ∧ (E.enclosing = [] → ∀ p ∈ E.parameter, p.name ≠ x)

/-- A type is built in, or a class above. -/
def NamesType (E : Sight) : Tree.TypeName → Prop
  | .int => True
  | .string => True
  | .named c => c ∈ E.classes.map (·.name)

inductive HasPlace (E : Sight) : Tree.Place → Ty → Prop where
  | variable {x : String} {type : Ty} (h : E.type? x = some type) : HasPlace E (.variable x) type
  | receiverField {c f : String} (howner : E.owner = some c) (hfield : E.HasField c f) :
      HasPlace E (.receiverField f) .int
  | objectField {x c f : String} (hobject : E.type? x = some (.object c))
      (hfield : E.HasField c f) : HasPlace E (.objectField x f) .int

inductive HasValue (E : Sight) : Tree.Value → Ty → Prop where
  | number {digits : String} : HasValue E (.number digits) .int
  | place {p : Tree.Place} {type : Ty} (h : E.HasPlace p type) : HasValue E (.place p) type

/-- What a variable of a type can begin with.  A string variable takes its bytes from a literal or
    from another string variable; a parameter has none. -/
inductive Begins (E : Sight) : Ty → Tree.Initial → Prop where
  | number {v : Tree.Value} (h : E.HasValue v .int) : Begins E .int (.value v)
  | text {content : String} : Begins E .string (.text content)
  | string {x : String} (h : E.inFrames? x = some .string) :
      Begins E .string (.value (.place (.variable x)))
  | create {c : String} : Begins E (.object c) (.create c)
  | copy {c : String} {v : Tree.Value} (h : E.HasValue v (.object c)) :
      Begins E (.object c) (.value v)

/-- The class and the method that a call names. -/
inductive Calls (E : Sight) : Tree.Callee → String → String → Prop where
  | bare {c m : String} (h : E.owner = some c) : Calls E (.bare m) c m
  | receiver {c m : String} (h : E.owner = some c) : Calls E (.receiver m) c m
  | object {x c m : String} (h : E.type? x = some (.object c)) : Calls E (.object x m) c m

/-- An argument is given exactly if there is a parameter, and has its type. -/
inductive Passes (E : Sight) : Option Parameter → Option Tree.Value → Prop where
  | nothing : Passes E none none
  | value {p : Parameter} {v : Tree.Value} (h : E.HasValue v p.type) : Passes E (some p) (some v)

/-- What can be written as a string. -/
inductive Writes (E : Sight) : Tree.Text → Prop where
  | literal {content : String} : Writes E (.literal content)
  | variable {x : String} (h : E.type? x = some .string) : Writes E (.variable x)

/-- The rules for statements without a block.  Strings cannot be assigned to. -/
inductive Allows (E : Sight) : Tree.Simple → Prop where
  | declare {type : Tree.TypeName} {x : String} {initial : Tree.Initial}
      (htype : E.NamesType type) (hfree : E.Free x) (hinitial : E.Begins type.type initial) :
      Allows E (.declare type x initial)
  | assign {target : Tree.Place} {v : Tree.Value} {type : Ty} (htarget : E.HasPlace target type)
      (htype : type ≠ .string) (hvalue : E.HasValue v type) : Allows E (.assign target v)
  | call {callee : Tree.Callee} {c m : String} {p : Option Parameter} {a : Option Tree.Value}
      (hcallee : E.Calls callee c m) (hmethod : E.HasMethod c m p) (hargument : E.Passes p a) :
      Allows E (.call callee a)
  | print {v : Tree.Value} (h : E.HasValue v .int) : Allows E (.print v)
  | printText {text : Tree.Text} (h : E.Writes text) : Allows E (.printText text)

/-- A condition compares numbers. -/
def Compares (E : Sight) (c : Tree.Condition) : Prop :=
  E.HasValue c.left .int ∧ E.HasValue c.right .int

def after (E : Sight) : Tree.Simple → Sight
  | .declare type x _ => { E with frame := E.frame ++ [(x, type.type)] }
  | _ => E

def enter (E : Sight) : Sight :=
  { E with frame := [], enclosing := E.frame :: E.enclosing }

inductive AllowsBlock : Sight → Tree.Block → Prop where
  | finish {E : Sight} : AllowsBlock E .finish
  | simple {E : Sight} {s : Tree.Simple} {rest : Tree.Block} (hsimple : E.Allows s)
      (hrest : AllowsBlock (E.after s) rest) : AllowsBlock E (.simple s rest)
  | branch {E : Sight} {kind : BranchKind} {c : Tree.Condition} {inner rest : Tree.Block}
      (hcondition : E.Compares c) (hinner : AllowsBlock E.enter inner)
      (hrest : AllowsBlock E rest) : AllowsBlock E (.branch kind c inner rest)

end Sight

/-! ### Labels -/

/-- A label that is asked for: by a method, which has to get it, or by a string. -/
inductive LabelUse where
  | method (label : String)
  | string (wanted : String)
deriving DecidableEq, Repr

/-- Every method gets its label: it is not one that generated code has on its own account, and
    nothing above has it.  A string takes the first label that is free. -/
def LabelsFit (taken : List String) : List LabelUse → Prop
  | [] => True
  | .method label :: rest =>
      Label.isGenerated label = false ∧ label ∉ taken ∧ LabelsFit (label :: taken) rest
  | .string wanted :: rest =>
      ∃ label, IsFirstFree taken wanted label ∧ LabelsFit (label :: taken) rest

namespace Tree

/-- How many numbers a statement draws: a literal that is written draws one. -/
def Simple.numbers : Simple → Nat
  | .printText (.literal _) => 1
  | _ => 0

/-- How many numbers the statements of a block draw: every block inside it draws one. -/
def Block.numbers : Block → Nat
  | .finish => 0
  | .simple s rest => s.numbers + rest.numbers
  | .branch _ _ inner rest => 1 + inner.numbers + rest.numbers

/-- The string labels that a statement asks for, when `n` numbers have been drawn above it. -/
def Simple.labelUses (owner : Option String) (method : String) (n : Nat) :
    Simple → List LabelUse
  | .declare .string x _ => [.string (Label.data owner method x)]
  | .printText (.literal _) =>
      [.string (Label.data owner method ("literal_" ++ toString (n + 1)))]
  | _ => []

/-- The string labels that the statements of a block ask for. -/
def Block.labelUses (owner : Option String) (method : String) (n : Nat) : Block → List LabelUse
  | .finish => []
  | .simple s rest =>
      s.labelUses owner method n ++ rest.labelUses owner method (n + s.numbers)
  | .branch _ _ inner rest =>
      inner.labelUses owner method (n + 1) ++
        rest.labelUses owner method (n + 1 + inner.numbers)

/-- The labels that methods and their strings ask for, each method with the class it belongs to. -/
def labelUses (n : Nat) : List (String × Method) → List LabelUse
  | [] => []
  | (owner, m) :: rest =>
      .method (Label.method owner m.name) ::
        (m.body.labelUses (some owner) m.name n ++ labelUses (n + m.body.numbers) rest)

/-- All methods of a program with the classes they belong to. -/
def Program.methods (p : Program) : List (String × Method) :=
  p.classes.flatMap fun c => c.methods.map fun m => (c.name, m)

end Tree

/-! ### Programs -/

/-- What is in sight at the beginning of a method: the classes above, its own class with the methods
    above, and itself. -/
def Tree.Class.sight (above : List Tree.Class) (c : Tree.Class) (methods : List Tree.Method)
    (m : Tree.Method) : Sight where
  classes := above.map Tree.Class.definition ++ [c.withMethods (methods ++ [m])]
  owner := some c.name
  parameter := m.signature.parameter
  frame := []
  enclosing := []

/-- What is in sight at the beginning of the entry point. -/
def Tree.Program.sight (p : Tree.Program) : Sight :=
  ⟨p.classes.map Tree.Class.definition, none, none, [], []⟩

/-- The rules for programs. -/
structure Tree.Program.WellFormed (p : Tree.Program) : Prop where
  classes : (p.classes.map (·.name)).Nodup
  fields : ∀ c ∈ p.classes, c.fields.Nodup
  methods : ∀ c ∈ p.classes, (c.methods.map (·.name)).Nodup
  parameters : ∀ above c below, p.classes = above ++ c :: below →
    ∀ before m behind, c.methods = before ++ m :: behind →
      ∀ q ∈ m.parameter, (c.sight above before m).NamesType q.type
  bodies : ∀ above c below, p.classes = above ++ c :: below →
    ∀ before m behind, c.methods = before ++ m :: behind →
      (c.sight above before m).AllowsBlock m.body
  main : p.sight.AllowsBlock p.main
  labels : LabelsFit Label.fixed (Tree.labelUses 0 p.methods)

end ClassLang
